import WgQuic.Core.Leases

/-!
# Retiring an endpoint

A peer that settles an endpoint it has left, or goes altogether, retires the
endpoint in the bind, and the bind does not ask who else is using it.
-/

namespace WgQuic.Core

open List WgQuic.Bind Obfs AList

/-- Every endpoint of the open state is filed under its own address. -/
def Filed (bind : EndpointBind) : Prop :=
  ∀ endpoint object, bind.endpoints.lookup endpoint = some object →
    ∃ ep, bind.objects[object]? = some ep ∧ ep.addr = endpoint

namespace Instance

variable {i mid after : Instance} {publicKey processed : String} {peer : PeerRuntime}
  {which : AddrPort → Prop}

/-- Only endpoints from among `which` are retired, while the peers stay. -/
structure Retires (processed : String) (which : AddrPort → Prop) (i after : Instance) : Prop where
  peers : after.peers = i.peers
  retirements : ∀ r ∈ after.retirements, r ∈ i.retirements ∨
    (r.processed = processed ∧ which r.endpoint ∧ r.selecting = i.selecting r.endpoint)
  filed : Filed i.bind → Filed after.bind
  objects : Filed i.bind → ∀ (object : Nat) (ep : EndpointObject),
    i.bind.objects[object]? = some ep → ¬which ep.addr →
    after.bind.objects[object]? = some ep

/-- The bind keeps its endpoints, and nothing is retired. -/
theorem Retires.of_same (peers : after.peers = i.peers)
    (retirements : after.retirements = i.retirements)
    (objects : after.bind.objects = i.bind.objects)
    (endpoints : after.bind.endpoints = i.bind.endpoints) : Retires processed which i after := by
  refine ⟨peers, ?_, ?_, ?_⟩
  · rw [retirements]
    exact fun r listed => .inl listed
  · intro filed
    rw [Filed, objects, endpoints]
    exact filed
  · rw [objects]
    exact fun _ _ _ found _ => found

theorem Retires.trans (first : Retires processed which i mid)
    (second : Retires processed which mid after) : Retires processed which i after := by
  refine ⟨second.peers.trans first.peers, ?_, fun filed => second.filed (first.filed filed),
    fun filed object ep found spared => second.objects (first.filed filed) object ep
      (first.objects filed object ep found spared) spared⟩
  intro r listed
  rcases second.retirements r listed with before | ⟨same, chosen, selecting⟩
  · exact first.retirements r before
  · refine .inr ⟨same, chosen, ?_⟩
    rw [selecting, Instance.selecting, Instance.selecting, first.peers]

theorem releaseAssociation_retires (release : Option Nat) :
    Retires processed which i (i.releaseAssociation release) := by
  cases release <;> exact .of_same rfl rfl rfl rfl

theorem releaseFECPolicy_retires (release : Option Nat) :
    Retires processed which i (i.releaseFECPolicy release) := by
  cases release <;> exact .of_same rfl rfl rfl rfl

theorem releaseReceiveKey_retires (release : Option Nat) :
    Retires processed which i (i.releaseReceiveKey release) := by
  cases release <;> exact .of_same rfl rfl rfl rfl

/-- Only the object that is filed under the endpoint is marked. -/
theorem retireEndpoint_spares (bind : EndpointBind) (endpoint : AddrPort)
    (filed : Filed bind) : Filed (bind.retireEndpoint endpoint) ∧
      ∀ (object : Nat) (ep : EndpointObject), bind.objects[object]? = some ep →
        ep.addr ≠ endpoint → (bind.retireEndpoint endpoint).objects[object]? = some ep := by
  unfold EndpointBind.retireEndpoint
  split
  · split
    · exact ⟨filed, fun _ _ found _ => found⟩
    next retired known =>
    obtain ⟨ep, found, named⟩ := filed endpoint retired known
    refine ⟨?_, ?_⟩
    · intro other object lookup
      obtain ⟨different, lookup⟩ := lookup_erase_cases lookup
      obtain ⟨filedEp, foundEp, namedEp⟩ := filed other object lookup
      have apart : retired ≠ object := by
        rintro rfl
        rw [found] at foundEp
        cases foundEp
        exact different (namedEp.symm.trans named)
      exact ⟨filedEp, by rw [getElem?_modify_ne _ _ apart]; exact foundEp, namedEp⟩
    · intro object other foundOther different
      have apart : retired ≠ object := by
        rintro rfl
        rw [found] at foundOther
        cases foundOther
        exact different named
      rw [getElem?_modify_ne _ _ apart]
      exact foundOther
  · exact ⟨filed, fun _ _ found _ => found⟩

theorem retireEndpoint_retires {endpoint : Option AddrPort}
    (chosen : ∀ retired, endpoint = some retired → which retired) :
    Retires processed which i (i.retireEndpoint processed endpoint) := by
  cases endpoint with
  | none => exact .of_same rfl rfl rfl rfl
  | some endpoint =>
    refine ⟨rfl, ?_, fun filed => (retireEndpoint_spares _ _ filed).1, ?_⟩
    · intro r listed
      rcases mem_append.mp listed with listed | listed
      · exact .inl listed
      · rw [mem_singleton] at listed
        subst listed
        exact .inr ⟨rfl, chosen endpoint rfl, rfl⟩
    · intro filed object ep found spared
      refine (retireEndpoint_spares _ _ filed).2 object ep found ?_
      rintro rfl
      exact spared (chosen _ rfl)

theorem settleEndpoints_retires {active : Option AddrPort} {resources : List PeerEndpointResources}
    (chosen : ∀ resource ∈ resources, ∀ retired, resource.endpoint = some retired →
      resource.endpoint ≠ active → which retired) (i : Instance) :
    Retires processed which i (settleEndpoints processed active resources i) := by
  induction resources generalizing i with
  | nil => exact .of_same rfl rfl rfl rfl
  | cons resource rest ih =>
    refine .trans ?_ (ih (fun other listed => chosen other (mem_cons_of_mem _ listed)) _)
    refine .trans (.trans ?_ (releaseAssociation_retires _)) (releaseFECPolicy_retires _)
    split
    · next left =>
      exact retireEndpoint_retires fun retired isEndpoint =>
        chosen resource mem_cons_self retired isEndpoint left
    · exact .of_same rfl rfl rfl rfl

theorem releasePeerRuntime_retires (chosen : ∀ retired ∈ peer.endpointsHeld, which retired) :
    Retires publicKey which i (i.releasePeerRuntime publicKey peer) := by
  have held : ∀ resource ∈ peer.resources, ∀ retired, resource.endpoint = some retired →
      which retired := fun resource listed retired isEndpoint =>
    chosen retired (mem_filterMap.mpr ⟨resource, listed, isEndpoint⟩)
  have current : Retires publicKey which i
      (i.retireEndpoint publicKey peer.status.selectedEndpoint) :=
    retireEndpoint_retires (held peer.current mem_cons_self)
  exact (((current.trans (settleEndpoints_retires (fun resource listed retired isEndpoint _ =>
    held resource (mem_cons_of_mem _ listed) retired isEndpoint) _)).trans
    (releaseFECPolicy_retires _)).trans (releaseAssociation_retires _)).trans
    (releaseReceiveKey_retires _)

/-! ## Peers that share no endpoint -/

/-- No other peer has the endpoint, or has left it without settling. -/
def Exclusive (i : Instance) (publicKey : String) (endpoint : AddrPort) : Prop :=
  endpoint ∉ (i.peers.erase publicKey).gather PeerRuntime.endpointsHeld

instance (i : Instance) (publicKey : String) (endpoint : AddrPort) :
    Decidable (i.Exclusive publicKey endpoint) :=
  inferInstanceAs (Decidable (_ ∉ _))

/-- Two peers hold different endpoints, and what WireGuard has for a peer is the
endpoint that it is at. -/
structure Separate (i : Instance) : Prop where
  disjoint : ∀ left right p q endpoint, i.peers.lookup left = some p →
    i.peers.lookup right = some q → endpoint ∈ p.endpointsHeld → endpoint ∈ q.endpointsHeld →
    left = right
  retirements : ∀ r ∈ i.retirements, ∀ publicKey ∈ r.selecting, publicKey = r.processed
  filed : Filed i.bind
  objects : ∀ publicKey peer object, i.peers.lookup publicKey = some peer →
    peer.object = some object → ∃ endpoint, peer.status.selectedEndpoint = some endpoint ∧
      i.bind.objects[object]? = some { addr := endpoint }

/-- One peer changes, and gets no endpoint that another one holds. -/
theorem Separate.change (separate : i.Separate)
    (peers : after.peers = i.peers.insert publicKey peer)
    (retirements : after.retirements = i.retirements) (filed : Filed after.bind)
    (kept : ∀ other known object endpoint, other ≠ publicKey →
      i.peers.lookup other = some known → known.object = some object →
      known.status.selectedEndpoint = some endpoint →
      i.bind.objects[object]? = some { addr := endpoint } →
      after.bind.objects[object]? = some { addr := endpoint })
    (exclusive : ∀ endpoint ∈ peer.endpointsHeld, i.Exclusive publicKey endpoint)
    (object : ∀ object, peer.object = some object →
      ∃ endpoint, peer.status.selectedEndpoint = some endpoint ∧
        after.bind.objects[object]? = some { addr := endpoint }) : after.Separate := by
  have apart : ∀ {other : String} {known : PeerRuntime} {endpoint : AddrPort},
      other ≠ publicKey → i.peers.lookup other = some known →
      endpoint ∈ known.endpointsHeld → endpoint ∉ peer.endpointsHeld := by
    intro other known endpoint different lookup held own
    refine exclusive endpoint own (mem_gather.mpr ⟨other, known, ?_, held⟩)
    rw [lookup_erase_ne different, lookup]
  refine ⟨?_, by rw [retirements]; exact separate.retirements, filed, ?_⟩
  · intro left right p q endpoint lookupLeft lookupRight heldLeft heldRight
    rw [peers] at lookupLeft lookupRight
    rcases lookup_insert_cases lookupLeft with ⟨rfl, rfl⟩ | ⟨differentLeft, oldLeft⟩
    · rcases lookup_insert_cases lookupRight with ⟨same, _⟩ | ⟨different, oldRight⟩
      · exact same.symm
      · exact absurd heldLeft (apart different oldRight heldRight)
    · rcases lookup_insert_cases lookupRight with ⟨_, rfl⟩ | ⟨_, oldRight⟩
      · exact absurd heldRight (apart differentLeft oldLeft heldLeft)
      · exact separate.disjoint _ _ _ _ endpoint oldLeft oldRight heldLeft heldRight
  · intro other known given lookup has
    rw [peers] at lookup
    rcases lookup_insert_cases lookup with ⟨_, rfl⟩ | ⟨different, lookup⟩
    · exact object given has
    · obtain ⟨endpoint, selected, found⟩ := separate.objects other known given lookup has
      exact ⟨endpoint, selected, kept other known given endpoint different lookup has selected
        found⟩

variable {endpoint : AddrPort} {bind : EndpointBind}

theorem Separate.exclusive (separate : i.Separate) (found : i.peers.lookup publicKey = some peer)
    (held : endpoint ∈ peer.endpointsHeld) : i.Exclusive publicKey endpoint := by
  intro listed
  obtain ⟨other, known, lookup, heldToo⟩ := mem_gather.mp listed
  obtain ⟨different, lookup⟩ := lookup_erase_cases lookup
  exact different (separate.disjoint _ _ _ _ endpoint lookup found heldToo held)

/-- A peer changes that holds no more than it did, while the bind stays. -/
theorem Separate.less (separate : i.Separate) {old : PeerRuntime}
    (peers : after.peers = i.peers.insert publicKey peer)
    (found : i.peers.lookup publicKey = some old)
    (held : ∀ endpoint ∈ peer.endpointsHeld, endpoint ∈ old.endpointsHeld)
    (retirements : after.retirements = i.retirements) (filed : Filed after.bind)
    (objects : after.bind.objects = i.bind.objects)
    (object : ∀ object, peer.object = some object → old.object = some object ∧
      peer.status.selectedEndpoint = old.status.selectedEndpoint) : after.Separate := by
  refine separate.change peers retirements filed ?_
    (fun endpoint own => separate.exclusive found (held endpoint own)) ?_
  · intro other known given endpoint _ _ _ _ placed
    rw [objects]
    exact placed
  · intro given has
    obtain ⟨hadIt, same⟩ := object given has
    rw [objects, same]
    exact separate.objects _ _ _ found hadIt

theorem Separate.quiet (separate : i.Separate) (quiet : i.Quiet after) : after.Separate := by
  refine ⟨by rw [quiet.peers]; exact separate.disjoint,
    by rw [quiet.retirements]; exact separate.retirements, ?_,
    by rw [quiet.peers, quiet.objects]; exact separate.objects⟩
  intro endpoint object lookup
  rw [quiet.objects]
  rcases quiet.endpoints endpoint object lookup with before | registered
  · exact separate.filed endpoint object before
  · exact registered

variable {later : EndpointBind}

theorem Borrows.objects (borrows : Borrows bind later) :
    later.objects = bind.objects ∧ later.endpoints = bind.endpoints := by
  cases borrows <;> exact ⟨rfl, rfl⟩

theorem Separate.borrow (separate : i.Separate) (borrows : Borrows i.bind bind) :
    { i with bind }.Separate := by
  obtain ⟨objects, endpoints⟩ := borrows.objects
  refine ⟨separate.disjoint, separate.retirements, ?_, ?_⟩
  · rw [Filed, objects, endpoints]
    exact separate.filed
  · rw [objects]
    exact separate.objects

/-- The object that is returned is filed under the endpoint and open; those that
are open stay so. -/
theorem parseEndpoint_parses (filed : Filed bind) (endpoint : AddrPort) :
    Filed (bind.parseEndpoint endpoint).2 ∧
      (bind.parseEndpoint endpoint).2.objects[(bind.parseEndpoint endpoint).1]? =
        some { addr := endpoint } ∧
      ∀ (object : Nat) (other : AddrPort), bind.objects[object]? = some { addr := other } →
        (bind.parseEndpoint endpoint).2.objects[object]? = some { addr := other } := by
  have kept : ∀ (object : Nat) (ep : EndpointObject), bind.objects[object]? = some ep →
      (bind.objects ++ [{ addr := endpoint }])[object]? = some ep := by
    intro object ep found
    rw [List.getElem?_append_left (List.getElem?_eq_some_iff.mp found).1]
    exact found
  unfold EndpointBind.parseEndpoint
  split
  · split
    · next chosen known =>
      obtain ⟨ep, found, named⟩ := filed endpoint chosen known
      refine ⟨?_, ?_, ?_⟩
      · intro other object lookup
        obtain ⟨filedEp, foundEp, namedEp⟩ := filed other object lookup
        rw [getElem?_modify, foundEp]
        exact ⟨_, rfl, by split <;> exact namedEp⟩
      · rw [getElem?_modify_eq, found, ← named]
        rfl
      · intro object other foundOther
        rw [getElem?_modify, foundOther]
        simp
    · refine ⟨?_, by simp, fun object other => kept object _⟩
      intro other object lookup
      rcases lookup_insert_cases lookup with ⟨rfl, rfl⟩ | ⟨_, lookup⟩
      · exact ⟨{ addr := other }, by simp, rfl⟩
      · obtain ⟨ep, found, named⟩ := filed other object lookup
        exact ⟨ep, kept object ep found, named⟩
  · refine ⟨?_, by simp, fun object other => kept object _⟩
    intro other object lookup
    obtain ⟨ep, found, named⟩ := filed other object lookup
    exact ⟨ep, kept object ep found, named⟩

theorem Separate.install (separate : i.Separate) (found : i.peers.lookup publicKey = some peer)
    {generation : Nat} {release : Option Nat} {fecRelease : Nat}
    (exclusive : i.Exclusive publicKey endpoint)
    (acquired : acquireEndpoint i.bind peer endpoint = (.ok (release, fecRelease), bind)) :
    ({ i with bind := (bind.parseEndpoint endpoint).2 }.setPeer publicKey
      (peer.switch (some endpoint) generation release (some fecRelease)
        (some (bind.parseEndpoint endpoint).1)
        (bind.parseEndpoint endpoint).2.receiveSequence)).Separate := by
  obtain ⟨objects, endpoints⟩ : bind.objects = i.bind.objects ∧
      bind.endpoints = i.bind.endpoints := by
    cases acquireEndpoint_acquires acquired <;> exact ⟨rfl, rfl⟩
  have filed : Filed bind := by
    rw [Filed, objects, endpoints]
    exact separate.filed
  obtain ⟨refiled, parsed, kept⟩ := parseEndpoint_parses filed endpoint
  refine separate.change rfl rfl refiled ?_ ?_ ?_
  · intro other known object chosen _ _ _ _ placed
    exact kept object chosen (by rw [objects]; exact placed)
  · intro held listed
    have all := (peer.switch_resources (some endpoint) generation release (some fecRelease)
      (some (bind.parseEndpoint endpoint).1) (bind.parseEndpoint endpoint).2.receiveSequence
      PeerEndpointResources.endpoint rfl).mem_iff.mp listed
    rcases mem_append.mp all with new | old
    · obtain rfl : held = endpoint := by simpa using new
      exact exclusive
    · exact separate.exclusive found old
  · rintro object ⟨⟩
    exact ⟨endpoint, rfl, parsed⟩

theorem Separate.clear (separate : i.Separate)
    (found : i.peers.lookup publicKey = some peer) (generation : Nat) :
    (i.setPeer publicKey
      (peer.switch none generation none none none i.bind.receiveSequence)).Separate := by
  refine separate.less rfl found ?_ rfl separate.filed rfl nofun
  intro held listed
  exact (peer.switch_resources none generation none none none i.bind.receiveSequence
    PeerEndpointResources.endpoint rfl).mem_iff.mp listed

/-- Retirements of endpoints that only the peer in hand holds. -/
theorem Retires.harmless (retires : Retires publicKey which i after) (separate : i.Separate)
    (found : i.peers.lookup publicKey = some peer)
    (held : ∀ endpoint, which endpoint → endpoint ∈ peer.endpointsHeld) :
    (∀ r ∈ after.retirements, ∀ name ∈ r.selecting, name = r.processed) ∧
      ∀ (other : String) (known : PeerRuntime) (object : Nat) (endpoint : AddrPort),
        other ≠ publicKey → i.peers.lookup other = some known →
        known.status.selectedEndpoint = some endpoint →
        i.bind.objects[object]? = some { addr := endpoint } →
        after.bind.objects[object]? = some { addr := endpoint } := by
  have selectedHeld : ∀ {known : PeerRuntime} {endpoint : AddrPort},
      known.status.selectedEndpoint = some endpoint → endpoint ∈ known.endpointsHeld :=
    fun selected => mem_filterMap.mpr ⟨_, mem_cons_self, selected⟩
  refine ⟨?_, ?_⟩
  · intro r listed name selecting
    rcases retires.retirements r listed with before | ⟨same, chosen, those⟩
    · exact separate.retirements r before name selecting
    · rw [those, Instance.selecting, mem_filter, Option.any_eq_true] at selecting
      obtain ⟨_, known, lookup, selected⟩ := selecting
      rw [same]
      exact separate.disjoint _ _ _ _ r.endpoint lookup found
        (selectedHeld (of_decide_eq_true selected)) (held _ chosen)
  · intro other known object endpoint different lookup selected placed
    refine retires.objects separate.filed object _ placed ?_
    intro chosen
    exact different (separate.disjoint _ _ _ _ endpoint lookup found (selectedHeld selected)
      (held _ chosen))

section

variable (separate : i.Separate)

include separate

theorem Separate.settle (found : i.peers.lookup publicKey = some peer) :
    ((settleEndpoints publicKey peer.status.selectedEndpoint peer.obsoleteEndpoints i).setPeer
      publicKey { peer with obsoleteEndpoints := [] }).Separate := by
  have retires : Retires publicKey (fun endpoint => endpoint ∈ peer.endpointsHeld ∧
      some endpoint ≠ peer.status.selectedEndpoint) i
      (settleEndpoints publicKey peer.status.selectedEndpoint peer.obsoleteEndpoints i) := by
    refine settleEndpoints_retires ?_ i
    intro resource listed retired isEndpoint left
    rw [isEndpoint] at left
    exact ⟨mem_filterMap.mpr ⟨resource, mem_cons_of_mem _ listed, isEndpoint⟩, left⟩
  obtain ⟨retirements, others⟩ := retires.harmless separate found fun _ chosen => chosen.1
  -- The retirements of the loop come first, and then the peer changes.
  have settled : (settleEndpoints publicKey peer.status.selectedEndpoint
      peer.obsoleteEndpoints i).Separate := by
    refine ⟨by rw [retires.peers]; exact separate.disjoint, retirements,
      retires.filed separate.filed, ?_⟩
    rw [retires.peers]
    intro name known object lookup has
    obtain ⟨endpoint, selected, placed⟩ := separate.objects name known object lookup has
    refine ⟨endpoint, selected, ?_⟩
    by_cases same : name = publicKey
    · subst same
      rw [found] at lookup
      cases lookup
      exact retires.objects separate.filed object _ placed fun chosen =>
        chosen.2 selected.symm
    · exact others name known object endpoint same lookup selected placed
  have still : (settleEndpoints publicKey peer.status.selectedEndpoint
      peer.obsoleteEndpoints i).peers.lookup publicKey = some peer := by
    rw [retires.peers]
    exact found
  refine settled.less rfl still ?_ rfl settled.filed rfl fun _ has => ⟨has, rfl⟩
  intro endpoint own
  refine mem_filterMap.mpr ?_
  obtain ⟨resource, listed, isEndpoint⟩ := mem_filterMap.mp own
  rw [PeerRuntime.resources, mem_singleton] at listed
  subst listed
  exact ⟨peer.current, mem_cons_self, isEndpoint⟩

theorem Separate.drop (found : i.peers.lookup publicKey = some peer) :
    (i.withoutPeer publicKey peer).Separate := by
  have retires : Retires publicKey (· ∈ peer.endpointsHeld) i
      (i.releasePeerRuntime publicKey peer) :=
    releasePeerRuntime_retires fun _ own => own
  obtain ⟨retirements, others⟩ := retires.harmless separate found fun _ chosen => chosen
  have peers : (i.withoutPeer publicKey peer).peers = i.peers.erase publicKey := by
    rw [← retires.peers]
    rfl
  refine ⟨?_, retirements, retires.filed separate.filed, ?_⟩
  · rw [peers]
    intro left right p q endpoint lookupLeft lookupRight
    exact separate.disjoint left right p q endpoint (lookup_erase_cases lookupLeft).2
      (lookup_erase_cases lookupRight).2
  · rw [peers]
    intro name known object lookup has
    obtain ⟨different, lookup⟩ := lookup_erase_cases lookup
    obtain ⟨endpoint, selected, placed⟩ := separate.objects name known object lookup has
    exact ⟨endpoint, selected, others name known object endpoint different lookup selected placed⟩

theorem Separate.add (unused : peer.Unused) :
    { i.setPeer publicKey peer with
      orphans := i.orphans ++ (i.peers.lookup publicKey).toList }.Separate := by
  refine separate.change rfl rfl separate.filed (fun _ _ _ _ _ _ _ _ placed => placed) ?_ ?_
  · intro endpoint own
    rw [PeerRuntime.endpointsHeld, unused_resources unused] at own
    cases own
  · intro object has
    rw [unused.object] at has
    cases has

theorem Separate.policy (found : i.peers.lookup publicKey = some peer) {old new : FECPolicy}
    (changed : i.changeFECPolicy publicKey peer old new = .ok after) : after.Separate := by
  cases changeFECPolicy_changes changed with
  | alone _ =>
    exact separate.less rfl found (fun _ own => own) rfl separate.filed rfl fun _ has => ⟨has, rfl⟩
  | leased _ _ =>
    refine separate.less rfl found ?_ rfl separate.filed rfl fun _ has => ⟨has, rfl⟩
    intro endpoint own
    obtain ⟨resource, listed, isEndpoint⟩ := mem_filterMap.mp own
    rcases mem_cons.mp listed with rfl | listed
    · exact mem_filterMap.mpr ⟨peer.current, mem_cons_self, isEndpoint⟩
    · exact mem_filterMap.mpr ⟨resource, mem_cons_of_mem _ listed, isEndpoint⟩

theorem Separate.move (moves : Moves Exclusive i after) : after.Separate := by
  cases moves with
  | quiet quiet => exact separate.quiet quiet
  | borrow borrows => exact separate.borrow borrows
  | install found newer permitted valid canonical acquired =>
    exact separate.install found permitted acquired
  | clear found newer => exact separate.clear found _
  | settle found => exact separate.settle found
  | authenticate found =>
    exact separate.less rfl found (fun _ own => own) rfl separate.filed rfl fun _ has => ⟨has, rfl⟩
  | policy found changed => exact separate.policy found changed
  | add unused => exact separate.add unused
  | drop found => exact separate.drop found

end

theorem Fresh.separate (fresh : i.Fresh) : i.Separate := by
  refine ⟨?_, ?_, ?_, ?_⟩
  · intro left right p q endpoint lookup _ own
    rw [PeerRuntime.endpointsHeld, unused_resources (fresh.peers _ _ lookup)] at own
    cases own
  · rw [fresh.retirements]
    exact nofun
  · intro endpoint object lookup
    rw [fresh.objects.2] at lookup
    simp at lookup
  · intro name known object lookup has
    rw [(fresh.peers _ _ lookup).object] at has
    cases has

/-- Nobody else is at an endpoint that is retired, and no peer has an endpoint that
the bind refuses to dial because it was retired. -/
structure RetiresOwn (i : Instance) : Prop where
  retirements : ∀ r ∈ i.retirements, ∀ publicKey ∈ r.selecting, publicKey = r.processed
  dials : ∀ publicKey peer object, i.peers.lookup publicKey = some peer →
    peer.object = some object → (i.bind.sessionForEndpoint object).1 ≠ .error .retired

/-- In every run in which no peer gets an endpoint that another one holds. -/
theorem retirement_spares_other_peers {settings : TransportSettings} {config : Bind.Config}
    {configured : List ConfiguredPeer}
    (reached : Reaches (Installs Exclusive) (newInstance settings config configured) i) :
    i.RetiresOwn := by
  have separate : i.Separate :=
    holds_of_reaches Exclusive (orderly_newInstance settings config configured)
      (fun _ _ permitted => permitted) (fun _ _ moves separate => separate.move moves)
      (fresh_newInstance settings config configured).separate reached
  refine ⟨separate.retirements, ?_⟩
  intro publicKey peer object found has
  obtain ⟨endpoint, _, placed⟩ := separate.objects publicKey peer object found has
  unfold EndpointBind.sessionForEndpoint
  rw [placed]
  split
  · next same =>
    cases same
    rw [if_neg Bool.false_ne_true]
    split <;> exact nofun
  · exact nofun

/-- Both peers are at one endpoint, and the first moves on and settles. -/
def sharedEndpoint : List CoreCall := [.openBind none [] [],
  .setPeerEndpoint firstPeer (some (sampleEndpoint 1)) 1 none,
  .setPeerEndpoint secondPeer (some (sampleEndpoint 1)) 1 none,
  .setPeerEndpoint firstPeer (some (sampleEndpoint 2)) 2 none, .finalizePeerEndpoint firstPeer 2]

/-- The endpoint is retired under the second peer, and not dialled for it again. -/
theorem shared_endpoint_retired : ∃ i, Reaches (fun _ _ => True) pairCore i ∧
    i.retirements = [⟨firstPeer, sampleEndpoint 1, [secondPeer]⟩] ∧
    (i.peers.lookup secondPeer).map (fun peer => (peer.status.selectedEndpoint, peer.object)) =
      some (some (sampleEndpoint 1), some 0) ∧
    (i.bind.sessionForEndpoint 0).1 = .error .retired ∧ ¬i.RetiresOwn := by
  refine ⟨sharedEndpoint.foldl step pairCore, Follows.reaches (by decide +kernel) .refl,
    by decide +kernel, by decide +kernel, by decide +kernel, ?_⟩
  intro own
  have same := own.retirements ⟨firstPeer, sampleEndpoint 1, [secondPeer]⟩
    (by exact mem_singleton_self _) secondPeer (mem_singleton_self _)
  exact absurd same (by decide)

def ownEndpoints : List CoreCall := [.openBind none [] [],
  .setPeerEndpoint firstPeer (some (sampleEndpoint 1)) 1 none,
  .setPeerEndpoint secondPeer (some (sampleEndpoint 3)) 1 none,
  .setPeerEndpoint firstPeer (some (sampleEndpoint 2)) 2 none, .finalizePeerEndpoint firstPeer 2]

theorem own_endpoint_retired :
    (ownEndpoints.foldl step pairCore).retirements = [⟨firstPeer, sampleEndpoint 1, []⟩] ∧
      (ownEndpoints.foldl step pairCore).RetiresOwn :=
  ⟨by decide +kernel, retirement_spares_other_peers (Follows.reaches (by decide +kernel) .refl)⟩

end Instance

end WgQuic.Core
