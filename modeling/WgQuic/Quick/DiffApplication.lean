import WgQuic.Core.PeerConfig
import WgQuic.Platform.RouteTransactions
import WgQuic.Quick.Executor
import WgQuic.Reconcile.Rearrangement

/-!
# What a difference asks for is what it takes

The mutations of a difference, sent to the core and applied to the current
peers, leave the desired ones; its route changes turn the current prefixes into
the desired ones, and no route manager refuses them.
-/

namespace WgQuic.Quick

open List Net.Prefix

open WgQuic.Canonical (CanonicalConfig CanonicalPeer Desired canonicalTable netOf pairIn peerOwning
  sortPrefixes_perm)
open WgQuic.Configuration (Config NetPrefix Peer)
open WgQuic.Core (DeviceMutation PeerOperation WireMutation applyCommittedPeerConfig mutationsFor
  parseCorePeerMutations)
open Reconcile

def operationName : PeerOperation → String
  | .add => "add"
  | .update => "update"
  | .remove => "remove"
  | .other name => name

/-- A mutation as it is sent; a prefix is written by `String`. -/
def PeerMutation.encode (mutation : PeerMutation) : WireMutation where
  operation := operationName mutation.operation
  publicKey := mutation.publicKey
  presharedKey := mutation.presharedKey
  allowedIPs := mutation.allowedIPs.map fun owned => owned.val.text
  endpoint := mutation.endpoint
  persistentKeepalive := mutation.persistentKeepalive
  fecPolicy := mutation.fecPolicy

/-- The peers with a key that is kept and something else that changes. -/
def updatedPeers (current desired : List Peer) : List Peer :=
  desired.filter fun peer => (peerChange current peer).isSome

section Mutations

variable {current desired : Config} {peers listed : List Peer} {peer : Peer}

theorem updated_keys (peers wanted : List Peer) :
    (wanted.filterMap (peerChange peers)).map PeerChange.publicKey =
      (updatedPeers peers wanted).map Peer.publicKey := by
  induction wanted with
  | nil => rfl
  | cons peer rest ih =>
    cases change : peerChange peers peer with
    | none => simpa [updatedPeers, change] using ih
    | some found =>
      have key : found.publicKey = peer.publicKey := by
        obtain ⟨before, -, made⟩ := Option.bind_eq_some_iff.mp change
        split at made
        · cases made
        · cases made
          rfl
      simpa [updatedPeers, change, key] using ih

/-- The peers of a list are found under their own keys. -/
theorem mutationsOf_eq (operation : PeerOperation) (kind state : String)
    (keys : (peers.map Peer.publicKey).Nodup) (within : ∀ peer ∈ listed, peer ∈ peers) :
    mutationsOf operation kind state peers (listed.map Peer.publicKey) =
      .ok (listed.map (controlPeerMutation operation)) := by
  rw [mutationsOf, Fallible.mapM_eq_ok, forall₂_map_left_iff, forall₂_map_right_iff, forall₂_same]
  intro peer member
  have found : peerMap peers peer.publicKey = some peer :=
    Keyed.last_of_mem keys (within peer member)
  rw [found]

theorem mem_updatedPeers : peer ∈ updatedPeers peers listed ↔ peer ∈ listed ∧ ∃ before,
      peerMap peers peer.publicKey = some before ∧ changedPeerFields before peer ≠ [] := by
  rw [updatedPeers, mem_filter]
  rw [Option.isSome_iff_ne_none, Ne, peerChange_eq_none]
  push Not
  rfl

theorem controlPeerMutations_eq (transaction : Transaction)
    (compared : transaction.diff = compare transaction.current transaction.desired)
    (currentKeys : (transaction.current.peers.map Peer.publicKey).Nodup)
    (desiredKeys : (transaction.desired.peers.map Peer.publicKey).Nodup) :
    controlPeerMutations transaction = .ok (
      (addedPeers transaction.current.peers transaction.desired.peers).map
          (controlPeerMutation .add) ++
        (updatedPeers transaction.current.peers transaction.desired.peers).map
          (controlPeerMutation .update) ++
        (removedPeers transaction.current.peers transaction.desired.peers).map
          (controlPeerMutation .remove)) := by
  rw [controlPeerMutations, compared, compare_added, compare_updated, compare_removed,
    updated_keys, mutationsOf_eq _ _ _ desiredKeys fun _ member => (mem_addedPeers.mp member).1,
    mutationsOf_eq _ _ _ desiredKeys fun _ member => (mem_updatedPeers.mp member).1,
    mutationsOf_eq _ _ _ currentKeys fun _ member => (mem_removedPeers.mp member).1]
  rfl

/-- A desired peer that is not updated is a current one as it is. -/
theorem eq_of_not_updated (continues : Continues current desired) (wanted : peer ∈ desired.peers)
    {before : Peer} (found : peerMap current.peers peer.publicKey = some before)
    (unchanged : peer ∉ updatedPeers current.peers desired.peers) : before = peer := by
  refine peer_eq (Keyed.mem_of_last found).2 (continues.presharedKey peer wanted before found) ?_
  by_contra changed
  exact unchanged (mem_updatedPeers.mpr ⟨wanted, before, found, changed⟩)

theorem applied_peers (continues : Continues current desired)
    (currentKeys : (current.peers.map Peer.publicKey).Nodup)
    (desiredKeys : (desired.peers.map Peer.publicKey).Nodup) :
    let applied := applyCommittedPeerConfig current.peers
      (mutationsFor (addedPeers current.peers desired.peers)
        (updatedPeers current.peers desired.peers) (removedPeers current.peers desired.peers))
    (applied.map Peer.publicKey).Nodup ∧ ∀ peer, peer ∈ applied ↔ peer ∈ desired.peers := by
  have keys : ((current.peers ++ addedPeers current.peers desired.peers).map
      Peer.publicKey).Nodup := by
    rw [map_append]
    refine nodup_append.mpr ⟨currentKeys, desiredKeys.sublist (filter_sublist.map _), ?_⟩
    rintro key old _ new rfl
    obtain ⟨peer, member, rfl⟩ := mem_map.mp new
    exact (mem_addedPeers.mp member).2 old
  have once : ((updatedPeers current.peers desired.peers).map Peer.publicKey).Nodup :=
    desiredKeys.sublist (filter_sublist.map _)
  have known : ∀ peer ∈ updatedPeers current.peers desired.peers,
      peer.publicKey ∈ current.peers.map Peer.publicKey := by
    intro peer member
    obtain ⟨-, before, found, -⟩ := mem_updatedPeers.mp member
    obtain ⟨listed, key⟩ := Keyed.mem_of_last found
    exact key ▸ mem_map_of_mem listed
  obtain ⟨nodup, members⟩ := @Core.mem_applyCommittedPeerConfig _ _ _
    (removedPeers current.peers desired.peers) keys once fun peer member => by
      rw [map_append]
      exact mem_append_left _ (known peer member)
  refine ⟨nodup, fun peer => (members peer).trans ?_⟩
  constructor
  · rintro ⟨updated | ⟨member, untouched⟩, kept⟩
    · exact (mem_updatedPeers.mp updated).1
    rcases mem_append.mp member with old | new
    · by_cases wanted : peer.publicKey ∈ desired.peers.map Peer.publicKey
      · obtain ⟨other, listed, key⟩ := mem_map.mp wanted
        have found : peerMap current.peers other.publicKey = some peer :=
          key ▸ Keyed.last_of_mem currentKeys old
        have unchanged : other ∉ updatedPeers current.peers desired.peers :=
          fun updated => untouched (key ▸ mem_map_of_mem updated)
        exact eq_of_not_updated continues listed found unchanged ▸ listed
      · exact absurd (mem_map_of_mem (mem_removedPeers.mpr ⟨old, wanted⟩)) kept
    · exact (mem_addedPeers.mp new).1
  · intro wanted
    have kept : peer.publicKey ∉ (removedPeers current.peers desired.peers).map Peer.publicKey := by
      intro gone
      obtain ⟨other, removed, key⟩ := mem_map.mp gone
      exact (mem_removedPeers.mp removed).2 (key ▸ mem_map_of_mem wanted)
    refine ⟨?_, kept⟩
    by_cases updated : peer ∈ updatedPeers current.peers desired.peers
    · exact .inl updated
    have untouched : peer.publicKey ∉
        (updatedPeers current.peers desired.peers).map Peer.publicKey := by
      intro changed
      obtain ⟨other, listed, key⟩ := mem_map.mp changed
      have same := inj_on_of_nodup_map desiredKeys (mem_updatedPeers.mp listed).1 wanted key
      exact updated (same ▸ listed)
    refine .inr ⟨?_, untouched⟩
    cases found : peerMap current.peers peer.publicKey with
    | none =>
      exact mem_append_right _ (mem_addedPeers.mpr ⟨wanted, Keyed.last_eq_none.mp found⟩)
    | some before =>
      have same := eq_of_not_updated continues wanted found updated
      exact mem_append_left _ (same ▸ (Keyed.mem_of_last found).1)

/-- The core may list the current peers in another order. -/
theorem applied_peers_perm (continues : Continues current desired)
    (currentKeys : (current.peers.map Peer.publicKey).Nodup)
    (desiredKeys : (desired.peers.map Peer.publicKey).Nodup) (perm : peers.Perm current.peers) :
    (applyCommittedPeerConfig peers (mutationsFor (addedPeers current.peers desired.peers)
      (updatedPeers current.peers desired.peers)
        (removedPeers current.peers desired.peers))).Perm desired.peers := by
  have keys := (perm.map Peer.publicKey).nodup_iff.mpr currentKeys
  have found : peerMap peers = peerMap current.peers :=
    funext (Keyed.last_congr keys currentKeys fun _ => perm.mem_iff)
  have tunnel := @hasDefaultRoute_congr { current with peers } current fun _ => perm.mem_iff
  obtain ⟨nodup, members⟩ := @applied_peers { current with peers } desired
    ⟨continues.interface, continues.transport, found ▸ continues.presharedKey,
      fun auto ipv4 => (tunnel ipv4).trans (continues.fullTunnel auto ipv4)⟩ keys desiredKeys
  have same := (perm_ext_iff_of_nodup nodup.of_map desiredKeys.of_map).mpr members
  simp only [Core.applyCommittedPeerConfig_eq, addedPeers, updatedPeers, removedPeers, peerChange,
    found] at same ⊢
  rwa [← Keyed.foldl_remove_perm ((perm.filter _).map _)]

end Mutations

open PeerRoutes (Canonical)

def PeerMutation.device (mutation : PeerMutation) : DeviceMutation where
  operation := mutation.operation
  peer := {
    publicKey := mutation.publicKey
    presharedKey := mutation.presharedKey
    allowedIPs := mutation.allowedIPs
    endpoint := mutation.endpoint
    persistentKeepalive := mutation.persistentKeepalive
    fecPolicy := mutation.fecPolicy }

theorem parsePrefix_text {owned : NetPrefix} (canonical : Canonical owned.val) :
    Net.parsePrefix owned.val.text = some owned.val := by
  rw [Net.Prefix.parsePrefix_text canonical.1, Net.prefixFrom, owned.property]

theorem parseAllowedIPs_text {prefixes : List NetPrefix}
    (canonical : ∀ owned ∈ prefixes, Canonical owned.val) (number prefixNumber : Nat) :
    Core.parseAllowedIPs number prefixNumber (prefixes.map fun owned => owned.val.text) =
      .ok prefixes := by
  induction prefixes generalizing prefixNumber with
  | nil => rfl
  | cons owned rest ih =>
    obtain ⟨first, later⟩ := forall_mem_cons.mp canonical
    rw [map_cons, Core.parseAllowedIPs, parsePrefix_text first]
    dsimp only
    rw [ih later, first.2, NetPrefix.ofPrefix_val]
    rfl

theorem parseMutations_encode {mutations : List PeerMutation} (known : ∀ mutation ∈ mutations,
      Core.parseOperation (operationName mutation.operation) = some mutation.operation)
    (canonical : ∀ mutation ∈ mutations, ∀ owned ∈ mutation.allowedIPs, Canonical owned.val)
    (number : Nat) :
    Core.parseMutations number (mutations.map PeerMutation.encode) =
      .ok (mutations.map PeerMutation.device) := by
  induction mutations generalizing number with
  | nil => rfl
  | cons mutation rest ih =>
    obtain ⟨operation, operations⟩ := forall_mem_cons.mp known
    obtain ⟨prefixes, others⟩ := forall_mem_cons.mp canonical
    rw [map_cons, Core.parseMutations]
    rw [show Core.parseOperation mutation.encode.operation = some mutation.operation from operation]
    change (Core.parseAllowedIPs number 1 (mutation.allowedIPs.map _) >>= _) = _
    rw [parseAllowedIPs_text prefixes]
    rw [ih operations others]
    rfl

/-! ## Routes -/

section Routes

variable {current desired : Config} {peers : List Peer} {owned : NetPrefix}

theorem mem_ownedPrefixes :
    owned ∈ ownedPrefixes peers ↔ ∃ peer ∈ peers, owned ∈ peer.allowedIPs := by
  rw [ownedPrefixes, mem_dedup, mem_flatMap]

theorem prefixOwners_isNone :
    (prefixOwners peers owned).isNone = true ↔ owned ∉ ownedPrefixes peers := by
  rw [prefixOwners, Option.isNone_map, Option.isNone_iff_eq_none, mem_ownedPrefixes]
  simp

theorem mem_routeAdditions : owned ∈ (compare current desired).routeAdditions ↔
      owned ∈ ownedPrefixes desired.peers ∧ owned ∉ ownedPrefixes current.peers := by
  rw [compare_routeAdditions, (sortPrefixes_perm _).mem_iff, mem_filter, prefixOwners_isNone]

theorem mem_routeRemovals : owned ∈ (compare current desired).routeRemovals ↔
      owned ∈ ownedPrefixes current.peers ∧ owned ∉ ownedPrefixes desired.peers := by
  rw [compare_routeRemovals, (sortPrefixes_perm _).mem_iff, mem_filter, prefixOwners_isNone]

theorem nodup_routeAdditions : (compare current desired).routeAdditions.Nodup := by
  rw [compare_routeAdditions, (sortPrefixes_perm _).nodup_iff]
  exact (nodup_dedup _).filter _

theorem nodup_routeRemovals : (compare current desired).routeRemovals.Nodup := by
  rw [compare_routeRemovals, (sortPrefixes_perm _).nodup_iff]
  exact (nodup_dedup _).filter _

/-- The current prefixes without the removals and with the additions are the desired ones. -/
theorem ownedPrefixes_desired : owned ∈ ownedPrefixes desired.peers ↔
      (owned ∈ ownedPrefixes current.peers ∧ owned ∉ (compare current desired).routeRemovals) ∨
        owned ∈ (compare current desired).routeAdditions := by
  rw [mem_routeAdditions, mem_routeRemovals]
  tauto

end Routes

section Plans

open PeerRoutes (AllCanonical PeerRoutePlan addTo applyPeerRoutePlan removeFrom)

variable {current removals additions : List Net.Prefix}

theorem removeFrom_accepts (nodup : removals.Nodup) (active : ∀ owned ∈ removals, owned ∈ current) :
    removeFrom current removals = .ok (current.filter (· ∉ removals)) := by
  induction removals generalizing current with
  | nil => simp [removeFrom]
  | cons first rest ih =>
    obtain ⟨once, nodup⟩ := nodup_cons.mp nodup
    obtain ⟨present, active⟩ := forall_mem_cons.mp active
    rw [removeFrom, if_pos present, ih nodup, filter_filter]
    · refine congrArg Except.ok (filter_congr fun owned _ => ?_)
      rw [Bool.eq_iff_iff]
      simp [and_comm]
    · intro owned member
      refine mem_filter.mpr ⟨active owned member, ?_⟩
      simpa using fun same : owned = first => once (same ▸ member)

theorem addTo_accepts (nodup : additions.Nodup) (fresh : ∀ owned ∈ additions, owned ∉ current) :
    addTo current additions = .ok (additions.reverse ++ current) := by
  induction additions generalizing current with
  | nil => rfl
  | cons first rest ih =>
    obtain ⟨once, nodup⟩ := nodup_cons.mp nodup
    obtain ⟨absent, fresh⟩ := forall_mem_cons.mp fresh
    rw [addTo, if_neg absent, ih nodup, reverse_cons, append_assoc]
    · rfl
    · intro owned member known
      rcases mem_cons.mp known with rfl | earlier
      · exact once member
      · exact fresh owned member earlier

/-- What a plan has to fulfil. -/
structure Fits (current : List Net.Prefix) (plan : PeerRoutePlan) : Prop where
  additionsCanonical : AllCanonical plan.additions
  removalsCanonical : AllCanonical plan.removals
  additionsNodup : plan.additions.Nodup
  removalsNodup : plan.removals.Nodup
  active : ∀ owned ∈ plan.removals, owned ∈ current
  fresh : ∀ owned ∈ plan.additions, owned ∉ current

/-- The projection that is left when the loops over a plan have ended. -/
def projected (current : List Net.Prefix) (plan : PeerRoutePlan) : List Net.Prefix :=
  (Net.Prefix.sort plan.additions).reverse ++ current.filter (· ∉ Net.Prefix.sort plan.removals)

variable {plan : PeerRoutePlan}

theorem mem_projected {owned : Net.Prefix} : owned ∈ projected current plan ↔
      (owned ∈ current ∧ owned ∉ plan.removals) ∨ owned ∈ plan.additions := by
  rw [projected, mem_append, mem_reverse, (sort_perm _).mem_iff,
    mem_filter, decide_eq_true_iff, (sort_perm _).mem_iff, or_comm]

theorem Fits.applies (fits : Fits current plan) (canonical : AllCanonical current)
    (nodup : current.Nodup) :
    ∃ after, applyPeerRoutePlan current plan = .ok after ∧ ∀ owned, owned ∈ after ↔
      (owned ∈ current ∧ owned ∉ plan.removals) ∨ owned ∈ plan.additions := by
  have removed := removeFrom_accepts ((sort_perm _).nodup_iff.mpr fits.removalsNodup)
    fun owned member => fits.active owned ((sort_perm _).mem_iff.mp member)
  have apart : ∀ owned ∈ sort plan.additions, owned ∉ current.filter (· ∉ sort plan.removals) :=
    fun owned member known =>
      fits.fresh owned ((sort_perm _).mem_iff.mp member) (mem_filter.mp known).1
  have additionsNodup := (sort_perm _).nodup_iff.mpr fits.additionsNodup
  have added : addTo _ _ = .ok (projected current plan) := addTo_accepts additionsNodup apart
  have allCanonical : AllCanonical (projected current plan) := by
    intro owned member
    rcases mem_projected.mp member with ⟨old, -⟩ | new
    · exact canonical owned old
    · exact fits.additionsCanonical owned new
  have allNodup : (projected current plan).Nodup := by
    refine nodup_append.mpr ⟨nodup_reverse.mpr additionsNodup, nodup.filter _, ?_⟩
    rintro owned new _ old rfl
    exact apart owned (mem_reverse.mp new) old
  refine ⟨sort (projected current plan), ?_, fun owned => (sort_perm _).mem_iff.trans mem_projected⟩
  simp only [applyPeerRoutePlan, bind, Except.bind,
    PeerRoutes.canonicalRoutePlanPrefixes_canonical fits.additionsCanonical fits.additionsNodup,
    PeerRoutes.canonicalRoutePlanPrefixes_canonical fits.removalsCanonical fits.removalsNodup,
    removed, added, PeerRoutes.canonicalRoutePlanPrefixes_canonical allCanonical allNodup]

/-- No manager refuses a plan that fits, unless it changes an automatic default route. -/
theorem Fits.prepared (fits : Fits current plan) (host : Platform.CommandHost)
    (noDefault : host.manager.automatic = true → ∀ owned ∈ plan.additions ++ plan.removals,
      owned.bits ≠ 0) :
    ∃ prepared, host.manager.prepare plan = .ok prepared := by
  rw [PeerRoutes.CommandPeerRouteManager.prepare,
    PeerRoutes.canonicalRoutePlanPrefixes_canonical fits.additionsCanonical fits.additionsNodup,
    PeerRoutes.canonicalRoutePlanPrefixes_canonical fits.removalsCanonical fits.removalsNodup]
  dsimp only
  have apart : (sort plan.additions).find? (· ∈ sort plan.removals) = none := by
    refine find?_eq_none.mpr fun owned new both => ?_
    have old := (sort_perm _).mem_iff.mp (of_decide_eq_true both)
    exact fits.fresh owned ((sort_perm _).mem_iff.mp new) (fits.active owned old)
  rw [apart]
  dsimp only
  unfold PeerRoutes.CommandPeerRouteManager.planned
  split
  · exact ⟨_, rfl⟩
  next enabled =>
  have member : ∀ owned, owned ∈ sort plan.additions ++
      sort plan.removals → owned ∈ plan.additions ++ plan.removals :=
    fun owned => (((sort_perm _).append (sort_perm _)).mem_iff).mp
  have kept : ¬(host.manager.automatic = true ∧ ∃ owned ∈ sort plan.additions ++
      sort plan.removals, owned.bits = 0) := by
    rintro ⟨automatic, owned, listed, zero⟩
    exact noDefault automatic owned (member owned listed) zero
  rw [if_neg kept]
  have single : ∀ owned ∈ plan.additions ++ plan.removals,
      host.manager.planner owned = .ok [host.operationOf owned] := by
    intro owned listed
    refine host.planner_eq (Bool.eq_false_iff.mpr enabled) ?_ fun both =>
      noDefault both.1 owned listed both.2
    exact (mem_append.mp listed).elim (fits.additionsCanonical owned) (fits.removalsCanonical owned)
  rw [Platform.planAll_singles fun owned listed =>
      single owned (mem_append_right _ ((sort_perm _).mem_iff.mp listed)),
    Platform.planAll_singles fun owned listed =>
      single owned (mem_append_left _ ((sort_perm _).mem_iff.mp listed))]
  exact ⟨_, rfl⟩

end Plans

/-! ## Desired configurations -/

section Configurations

open PeerRoutes (PeerRoutePlan applyPeerRoutePlan)

variable {letters : Strings.LowerCase} {current desired : Config} {owned : NetPrefix}

theorem canonical_of_peer (canonical : CanonicalConfig letters current) :
    ∀ peer ∈ current.peers, ∀ owned ∈ peer.allowedIPs, Canonical owned.val := by
  intro peer listed owned member
  exact ⟨(canonical.peers peer listed).valid owned member,
    congrArg Subtype.val ((canonical.peers peer listed).masked owned member)⟩

theorem canonical_of_owned (canonical : CanonicalConfig letters current)
    (member : owned ∈ ownedPrefixes current.peers) : Canonical owned.val := by
  obtain ⟨peer, listed, allowed⟩ := mem_ownedPrefixes.mp member
  exact canonical_of_peer canonical peer listed owned allowed

theorem mem_map_val {prefixes : List NetPrefix} :
    owned.val ∈ prefixes.map Subtype.val ↔ owned ∈ prefixes :=
  mem_map_of_injective Subtype.val_injective

theorem value_of_default (canonical : Canonical owned.val) (zero : owned.val.bits = 0) :
    owned.val.addr.value = 0 := by
  have fixed : owned.val.addr.mask owned.val.bits = owned.val.addr := congrArg addr canonical.2
  rw [← fixed, zero]
  cases owned.val.addr with
  | v4 | v6 => simp [Net.Addr.mask, Net.Addr.value]

/-- A family has one default route. -/
theorem default_eq {other : NetPrefix} (left : Canonical owned.val) (right : Canonical other.val)
    (zero : owned.val.bits = 0) (otherZero : other.val.bits = 0)
    (family : owned.val.addr.is4 = other.val.addr.is4) : owned = other := by
  apply Canonical.prefixRank_injective
  rw [Canonical.prefixRank, Canonical.prefixRank, family, zero, otherZero,
    value_of_default left zero, value_of_default right otherZero]

theorem hasDefaultRoute_iff {config : Config} {ipv4 : Bool} : hasDefaultRoute config ipv4 = true ↔
      ∃ owned ∈ ownedPrefixes config.peers, owned.val.bits = 0 ∧ owned.val.addr.is4 = ipv4 := by
  simp only [hasDefaultRoute, any_eq_true, Bool.and_eq_true, beq_iff_eq, mem_ownedPrefixes]
  constructor
  · rintro ⟨peer, listed, owned, allowed, found⟩
    exact ⟨owned, ⟨peer, listed, allowed⟩, found⟩
  · rintro ⟨owned, ⟨peer, listed, allowed⟩, found⟩
    exact ⟨peer, listed, owned, allowed, found⟩

section

variable (left : CanonicalConfig letters current) (right : CanonicalConfig letters desired)
  (tunnel : ∀ ipv4, hasDefaultRoute current ipv4 = hasDefaultRoute desired ipv4)

include left right tunnel

/-- A default route stands on both sides or on none. -/
theorem default_of_default
    (zero : owned.val.bits = 0) (member : owned ∈ ownedPrefixes current.peers) :
    owned ∈ ownedPrefixes desired.peers := by
  have here : hasDefaultRoute current owned.val.addr.is4 = true :=
    hasDefaultRoute_iff.mpr ⟨owned, member, zero, rfl⟩
  rw [tunnel] at here
  obtain ⟨other, listed, otherZero, family⟩ := hasDefaultRoute_iff.mp here
  rw [default_eq (canonical_of_owned left member) (canonical_of_owned right listed) zero otherZero
    family.symm]
  exact listed

theorem no_default_change : ∀ owned ∈ (compare current desired).routeAdditions ++
      (compare current desired).routeRemovals, owned.val.bits ≠ 0 := by
  intro owned member zero
  rcases mem_append.mp member with new | old
  · obtain ⟨wanted, absent⟩ := mem_routeAdditions.mp new
    exact absent (default_of_default right left (fun ipv4 => (tunnel ipv4).symm) zero wanted)
  · obtain ⟨known, absent⟩ := mem_routeRemovals.mp old
    exact absent (default_of_default left right tunnel zero known)

end

theorem code_of_auto {symbol : Char} (member : symbol.toLower ∈ "auto".toList) :
    symbol.toNat < 128 ∧ Strings.isSpace symbol = false := by
  by_cases upper : 65 ≤ symbol.toNat ∧ symbol.toNat ≤ 90
  · refine ⟨by omega, Bool.eq_false_iff.mpr fun space => ?_⟩
    simp only [Strings.isSpace, Bool.or_eq_true, Bool.and_eq_true, decide_eq_true_eq,
      beq_iff_eq] at space
    omega
  · rw [Strings.toLower_of_not_upper upper] at member
    have plain : ∀ symbol ∈ "auto".toList,
        symbol.toNat < 128 ∧ Strings.isSpace symbol = false := by simp [Strings.isSpace]
    exact plain symbol member

theorem canonicalTable_automatic {table : PeerRoutes.Text}
    (automatic : table = [] ∨ PeerRoutes.equalFold table "auto" = true) :
    canonicalTable letters table = "auto".toList := by
  rcases automatic with rfl | folded
  · rfl
  · have lowered : table.map Char.toLower = "auto".toList := of_decide_eq_true folded
    have code : ∀ symbol ∈ table, symbol.toNat < 128 ∧ Strings.isSpace symbol = false :=
      fun symbol member => code_of_auto (lowered ▸ mem_map_of_mem member)
    have text : letters.text table = "auto".toList := by
      rw [← lowered]
      exact map_congr_left fun symbol member => letters.ascii symbol (code symbol member).1
    rw [canonicalTable, (Strings.trimmed_of_forall fun symbol member =>
      (code symbol member).2).trimSpace, text]
    rfl

/-- The plan that the executor gives to the route manager. -/
def routePlan (transactionID : PeerRoutes.Text) (diff : Diff) : PeerRoutePlan where
  transactionID := transactionID
  additions := diff.routeAdditions.map Subtype.val
  removals := diff.routeRemovals.map Subtype.val

variable {routes : List Net.Prefix}

theorem fits_routePlan (left : CanonicalConfig letters current)
    (right : CanonicalConfig letters desired) (transactionID : PeerRoutes.Text)
    (listing : routes.Perm ((ownedPrefixes current.peers).map Subtype.val)) :
    Fits routes (routePlan transactionID (compare current desired)) := by
  constructor
  · exact forall_mem_map.mpr fun owned member =>
      canonical_of_owned right (mem_routeAdditions.mp member).1
  · exact forall_mem_map.mpr fun owned member =>
      canonical_of_owned left (mem_routeRemovals.mp member).1
  · exact nodup_routeAdditions.map Subtype.val_injective
  · exact nodup_routeRemovals.map Subtype.val_injective
  · refine forall_mem_map.mpr fun owned member => listing.mem_iff.mpr ?_
    exact mem_map_of_mem (mem_routeRemovals.mp member).1
  · refine forall_mem_map.mpr fun owned member known => (mem_routeAdditions.mp member).2 ?_
    exact mem_map_val.mp (listing.mem_iff.mp known)

theorem routes_applied (left : CanonicalConfig letters current)
    (right : CanonicalConfig letters desired) (transactionID : PeerRoutes.Text)
    (listing : routes.Perm ((ownedPrefixes current.peers).map Subtype.val)) :
    ∃ after, applyPeerRoutePlan routes
        (routePlan transactionID (compare current desired)) = .ok after ∧
      ∀ owned, owned ∈ after ↔ owned ∈ (ownedPrefixes desired.peers).map Subtype.val := by
  have canonical : PeerRoutes.AllCanonical routes := by
    intro net member
    obtain ⟨owned, known, rfl⟩ := mem_map.mp (listing.mem_iff.mp member)
    exact canonical_of_owned left known
  have nodup : routes.Nodup := listing.nodup_iff.mpr ((nodup_dedup _).map Subtype.val_injective)
  obtain ⟨after, applies, members⟩ :=
    (fits_routePlan left right transactionID listing).applies canonical nodup
  refine ⟨after, applies, fun net => (members net).trans ?_⟩
  constructor
  · rintro (⟨member, kept⟩ | new)
    · obtain ⟨owned, known, rfl⟩ := mem_map.mp (listing.mem_iff.mp member)
      refine mem_map_of_mem (ownedPrefixes_desired.mpr (.inl ⟨known, fun gone => ?_⟩))
      exact kept (mem_map_of_mem gone)
    · obtain ⟨owned, added, rfl⟩ := mem_map.mp new
      exact mem_map_of_mem (mem_routeAdditions.mp added).1
  · intro member
    obtain ⟨owned, wanted, rfl⟩ := mem_map.mp member
    rcases ownedPrefixes_desired.mp wanted with ⟨known, kept⟩ | new
    · exact .inl ⟨listing.mem_iff.mpr (mem_map_of_mem known),
        fun gone => kept (mem_map_val.mp gone)⟩
    · exact .inr (mem_map_of_mem new)

/-- The mutations of a difference are read back as they were meant. -/
theorem parse_mutations {added updated removed : List Peer}
    (addable : ∀ peer ∈ added, ∀ owned ∈ peer.allowedIPs, Canonical owned.val)
    (updatable : ∀ peer ∈ updated, ∀ owned ∈ peer.allowedIPs, Canonical owned.val)
    (removable : ∀ peer ∈ removed, ∀ owned ∈ peer.allowedIPs, Canonical owned.val) :
    parseCorePeerMutations ((added.map (controlPeerMutation .add) ++
        updated.map (controlPeerMutation .update) ++
          removed.map (controlPeerMutation .remove)).map PeerMutation.encode) =
      .ok (mutationsFor added updated removed) := by
  have devices : (added.map (controlPeerMutation .add) ++
      updated.map (controlPeerMutation .update) ++
        removed.map (controlPeerMutation .remove)).map PeerMutation.device =
      mutationsFor added updated removed := by
    rw [map_append, map_append, map_map, map_map, map_map]
    rfl
  rw [← devices]
  refine parseMutations_encode ?_ ?_ 1
  · simp only [forall_mem_append, forall_mem_map]
    exact ⟨⟨fun _ _ => rfl, fun _ _ => rfl⟩, fun _ _ => rfl⟩
  · simp only [forall_mem_append, forall_mem_map]
    exact ⟨⟨addable, updatable⟩, removable⟩

theorem mutations_applied (transaction : Transaction)
    (left : CanonicalConfig letters transaction.current)
    (right : CanonicalConfig letters transaction.desired)
    (continues : Continues transaction.current transaction.desired)
    (compared : transaction.diff = compare transaction.current transaction.desired) :
    ∃ mutations parsed, controlPeerMutations transaction = .ok mutations ∧
      parseCorePeerMutations (mutations.map PeerMutation.encode) = .ok parsed ∧
      ((applyCommittedPeerConfig transaction.current.peers parsed).map Peer.publicKey).Nodup ∧
      ∀ publicKey, peerMap (applyCommittedPeerConfig transaction.current.peers parsed) publicKey =
          peerMap transaction.desired.peers publicKey := by
  obtain ⟨nodup, members⟩ := applied_peers continues left.keys right.keys
  refine ⟨_, _, controlPeerMutations_eq _ compared left.keys right.keys,
    parse_mutations ?_ ?_ ?_, nodup, Keyed.last_congr nodup right.keys members⟩
  · exact fun peer member => canonical_of_peer right peer (mem_addedPeers.mp member).1
  · exact fun peer member => canonical_of_peer right peer (mem_updatedPeers.mp member).1
  · exact fun peer member => canonical_of_peer left peer (mem_removedPeers.mp member).1

theorem diff_applied_exactly (current desired : Desired letters) (epoch requestID : String)
    (baseGeneration nextGeneration : Nat) (transactionID : PeerRoutes.Text) :
    let before := current.config
    let after := desired.config
    let diff := compare before after
    (diff.restartRequired = false → (∃ mutations parsed, controlPeerMutations
            ⟨epoch, requestID, baseGeneration, nextGeneration, before, after, diff⟩ =
          .ok mutations ∧ parseCorePeerMutations (mutations.map PeerMutation.encode) = .ok parsed ∧
        ((applyCommittedPeerConfig before.peers parsed).map Peer.publicKey).Nodup ∧
        ∀ publicKey, peerMap (applyCommittedPeerConfig before.peers parsed) publicKey =
          peerMap after.peers publicKey) ∧ (∀ owned, owned ∈ ownedPrefixes after.peers ↔
        (owned ∈ ownedPrefixes before.peers ∧ owned ∉ diff.routeRemovals) ∨
          owned ∈ diff.routeAdditions) ∧
      (∀ owned ∈ diff.routeRemovals, owned ∈ ownedPrefixes before.peers) ∧
      (∀ owned ∈ diff.routeAdditions, owned ∉ ownedPrefixes before.peers) ∧
      (∀ routes : List Net.Prefix, routes.Perm ((ownedPrefixes before.peers).map Subtype.val) →
          ∃ result, applyPeerRoutePlan routes (routePlan transactionID diff) = .ok result ∧
            ∀ owned, owned ∈ result ↔ owned ∈ (ownedPrefixes after.peers).map Subtype.val) ∧
      ∀ host : Platform.CommandHost,
        canonicalTable letters host.manager.table = current.config.interface.table →
          ∃ prepared, host.manager.prepare (routePlan transactionID diff) = .ok prepared) ∧
    (diff.changed = false ∧ diff.restartRequired = false ↔ current.config = desired.config) := by
  refine ⟨fun silent => ?_, Canonical.compare_silent_iff_eq current.canonical desired.canonical⟩
  have continues := restartRequired_eq_false.mp silent
  refine ⟨mutations_applied _ current.canonical desired.canonical continues rfl,
    fun _ => ownedPrefixes_desired, fun _ member => (mem_routeRemovals.mp member).1,
    fun _ member => (mem_routeAdditions.mp member).2,
    fun _ listing => routes_applied current.canonical desired.canonical transactionID listing, ?_⟩
  intro host table
  refine (fits_routePlan current.canonical desired.canonical transactionID (.refl _)).prepared
    host fun automatic => ?_
  have auto : current.config.interface.table = "auto".toList := by
    rw [← table, canonicalTable_automatic (of_decide_eq_true automatic)]
  have kept := no_default_change current.canonical desired.canonical (continues.fullTunnel auto)
  rw [routePlan, ← map_append]
  exact forall_mem_map.mpr kept

/-- Only the first peer is left, with an endpoint and another prefix. -/
def single : Config :=
  { pairIn id with peers := [{ peerOwning 'A' [netOf 1, netOf 5] with
      endpoint := "vpn.example:51820".toList }] }

theorem canonical_single : CanonicalConfig .plain single := by
  have sorted : Canonical.sortPrefixes [netOf 1, netOf 5] = [netOf 1, netOf 5] :=
    mergeSort_of_pairwise (by decide)
  refine ⟨rfl, ?_, by decide +kernel, by decide +kernel, mergeSort_singleton _⟩
  rintro peer (- | ⟨_, ⟨⟩⟩)
  exact ⟨by decide +kernel, .inl rfl, by decide, by decide +kernel, by decide +kernel, sorted⟩

def desiredPair : Desired .plain where
  config := pairIn id
  digest := []
  canonical := Canonical.canonicalConfig (Canonical.canonicalPeer_of_active .plain none)
    Canonical.canonicalize_pair

def desiredSingle : Desired .plain := ⟨single, [], canonical_single⟩

/-- One of two peers goes, and the other one gets an endpoint and another prefix. -/
theorem pair_becomes_single :
    let before := desiredPair.config
    let after := desiredSingle.config
    let diff := compare before after
    diff.restartRequired = false ∧ netOf 5 ∈ diff.routeAdditions ∧
      netOf 2 ∈ diff.routeRemovals ∧ netOf 3 ∈ diff.routeRemovals ∧
      (∃ mutations parsed, controlPeerMutations ⟨"epoch", "request", 0, 1, before, after, diff⟩ =
          .ok mutations ∧ parseCorePeerMutations (mutations.map PeerMutation.encode) = .ok parsed ∧
        ((applyCommittedPeerConfig before.peers parsed).map Peer.publicKey).Nodup ∧
        ∀ publicKey, peerMap (applyCommittedPeerConfig before.peers parsed) publicKey =
          peerMap after.peers publicKey) ∧
      ∃ result, applyPeerRoutePlan ((ownedPrefixes before.peers).map Subtype.val)
          (routePlan [] diff) = .ok result ∧
        ∀ owned, owned ∈ result ↔ owned ∈ (ownedPrefixes after.peers).map Subtype.val := by
  have silent : (compare desiredPair.config desiredSingle.config).restartRequired = false := by
    decide +kernel
  obtain ⟨mutations, -, -, -, routes, -⟩ :=
    (diff_applied_exactly desiredPair desiredSingle "epoch" "request" 0 1 []).1 silent
  refine ⟨silent, mem_routeAdditions.mpr ?_, mem_routeRemovals.mpr ?_, mem_routeRemovals.mpr ?_,
    mutations, routes _ (.refl _)⟩
  all_goals decide +kernel

/-! ## Histories -/

/-- The change needs no restart. -/
def Silent (current desired : Desired letters) : Prop :=
  (compare current.config desired.config).restartRequired = false

/-- The peers of the core after commits, each planned against the configuration
before it. -/
def peersAfter (plan : Transaction) (peers : List Peer) (current : Desired letters) :
    List (Desired letters) → Option (List Peer)
  | [] => some peers
  | next :: rest =>
    let diff := compare current.config next.config
    if diff.restartRequired then none
    else
      match controlPeerMutations
          { plan with current := current.config, desired := next.config, diff } with
      | .error _ => none
      | .ok mutations =>
        match parseCorePeerMutations (mutations.map PeerMutation.encode) with
        | .error _ => none
        | .ok parsed => peersAfter plan (applyCommittedPeerConfig peers parsed) next rest

theorem peersAfter_cons {current next : Desired letters} {peers : List Peer} (plan : Transaction)
    (rest : List (Desired letters)) (perm : peers.Perm current.config.peers)
    (silent : Silent current next) :
    ∃ applied : List Peer, applied.Perm next.config.peers ∧
      peersAfter plan peers current (next :: rest) = peersAfter plan applied next rest := by
  have currentKeys := current.canonical.keys
  have nextKeys := next.canonical.keys
  refine ⟨_, applied_peers_perm (restartRequired_eq_false.mp silent) currentKeys nextKeys perm, ?_⟩
  rw [peersAfter, show Diff.restartRequired _ = _ from silent, if_neg Bool.false_ne_true,
    controlPeerMutations_eq _ rfl currentKeys nextKeys]
  dsimp only
  rw [parse_mutations]
  · exact fun peer member => canonical_of_peer next.canonical peer (mem_addedPeers.mp member).1
  · exact fun peer member => canonical_of_peer next.canonical peer (mem_updatedPeers.mp member).1
  · exact fun peer member => canonical_of_peer current.canonical peer (mem_removedPeers.mp member).1

/-- A history is committed to its end if and only if no change needs a restart, and
then the core has the peers of its last configuration. -/
theorem core_follows_history (plan : Transaction) (first : Desired letters)
    (history : List (Desired letters)) :
    ((peersAfter plan first.config.peers first history).isSome ↔
        (first :: history).IsChain Silent) ∧
      ∀ peers ∈ peersAfter plan first.config.peers first history,
        peers.Perm (history.getLastD first).config.peers := by
  suffices general : ∀ peers : List Peer, peers.Perm first.config.peers →
      ((peersAfter plan peers first history).isSome ↔ (first :: history).IsChain Silent) ∧
        ∀ after ∈ peersAfter plan peers first history,
          after.Perm (history.getLastD first).config.peers from general _ (.refl _)
  induction history generalizing first with
  | nil =>
    intro peers perm
    exact ⟨⟨fun _ => .singleton _, fun _ => rfl⟩, fun _ done => Option.some.inj done ▸ perm⟩
  | cons next rest ih =>
    intro peers perm
    rw [isChain_cons_cons, getLastD_cons]
    by_cases silent : Silent first next
    · obtain ⟨applied, becomes, steps⟩ := peersAfter_cons plan rest perm silent
      rw [steps, and_iff_right silent]
      exact ih next applied becomes
    · rw [peersAfter, if_pos (eq_true_of_ne_false silent)]
      exact ⟨⟨nofun, fun chain => absurd chain.1 silent⟩, nofun⟩

end Configurations

end WgQuic.Quick
