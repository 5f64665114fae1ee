import WgQuic.Core.Paths

/-!
# Leases and their holders

A peer holds the leases of its endpoint and of those it has left.  The bind
counts exactly these, and a release function is called only while the peer that
was given it still has it.
-/

namespace WgQuic.Core

open List WgQuic.Bind Obfs ArmorBind FECLeases PeerRuntime

namespace PeerRuntime

def current (peer : PeerRuntime) : PeerEndpointResources :=
  { endpoint := peer.status.selectedEndpoint
    releaseAssociation := peer.releaseAssociation
    releaseFECPolicy := peer.releaseFECPolicy }

/-- What belongs to the current endpoint, and to those the peer has left. -/
def resources (peer : PeerRuntime) : List PeerEndpointResources :=
  peer.current :: peer.obsoleteEndpoints

def fecFunctions (peer : PeerRuntime) : List Nat :=
  peer.resources.filterMap PeerEndpointResources.releaseFECPolicy

def keyFunctions (peer : PeerRuntime) : List Nat :=
  peer.resources.filterMap PeerEndpointResources.releaseAssociation

def endpointsHeld (peer : PeerRuntime) : List AddrPort :=
  peer.resources.filterMap PeerEndpointResources.endpoint

theorem switch_resources {α : Type} (peer : PeerRuntime) (endpoint : Option AddrPort)
    (generation : Nat) (association fecPolicy object : Option Nat) (sequence : UInt64)
    (part : PeerEndpointResources → Option α) (nothing : part ⟨none, none, none⟩ = none) :
    ((peer.switch endpoint generation association fecPolicy object sequence).resources.filterMap
      part).Perm
      ((part ⟨endpoint, association, fecPolicy⟩).toList ++ peer.resources.filterMap part) := by
  have new : (peer.switch endpoint generation association fecPolicy object sequence).resources =
      ⟨endpoint, association, fecPolicy⟩ :: peer.retainEndpointResources.obsoleteEndpoints := rfl
  have old : (peer.retainEndpointResources.obsoleteEndpoints.filterMap part).Perm
      (peer.resources.filterMap part) := by
    unfold retainEndpointResources
    split
    · next empty =>
      simp only [Option.isNone_iff_eq_none] at empty
      have none : peer.current = ⟨none, none, none⟩ := by
        simp [current, empty.1, empty.2.1, empty.2.2]
      rw [resources, none, filterMap_cons, nothing]
    · refine List.Perm.filterMap _ ?_
      exact perm_append_singleton peer.current peer.obsoleteEndpoints
  rw [new, filterMap_cons]
  cases part ⟨endpoint, association, fecPolicy⟩ with
  | none => exact old
  | some item => exact old.cons item

end PeerRuntime

/-- What is kept of an endpoint are the functions that the bind gave out for it. -/
inductive Keeps (bind : EndpointBind) (key : Option Key) : PeerEndpointResources → Prop where
  | nothing : Keeps bind key ⟨none, none, none⟩
  | plain {endpoint : AddrPort} {function : Nat} {policy : FECPolicy} (keyless : key = none)
      (placed : bind.fec.book.place function = some (endpoint, policy)) :
      Keeps bind key ⟨some endpoint, none, some function⟩
  | keyed {endpoint : AddrPort} {function association : Nat} {policy : FECPolicy}
      {known : Key} (hasKey : key = some known)
      (placed : bind.fec.book.place function = some (endpoint, policy))
      (associated : bind.keys.endpointBook.place association = some (endpoint, known)) :
      Keeps bind key ⟨some endpoint, some association, some function⟩

structure Holds (bind : EndpointBind) (peer : PeerRuntime) : Prop where
  keeps : ∀ resource ∈ peer.resources, Keeps bind peer.obfsKey resource
  selected : ∀ endpoint, peer.status.selectedEndpoint = some endpoint →
    endpoint.port ≠ 0 ∧ canonicalAddrPort endpoint = endpoint ∧
      ∃ function, peer.releaseFECPolicy = some function ∧
        bind.fec.book.place function = some (endpoint, peer.fecPolicy)

/-- No function is given out for something else later. -/
structure Retains (bind after : EndpointBind) : Prop where
  fec : ∀ index target, bind.fec.book.place index = some target →
    after.fec.book.place index = some target
  keys : ∀ index target, bind.keys.endpointBook.place index = some target →
    after.keys.endpointBook.place index = some target

theorem Retains.refl (bind : EndpointBind) : Retains bind bind :=
  ⟨fun _ _ placed => placed, fun _ _ placed => placed⟩

variable {resource : PeerEndpointResources} {bind after : EndpointBind}

/-- The lease of the policy is replaced by another one for the same endpoint. -/
theorem Keeps.renew {key : Option Key} {endpoint : AddrPort} {association : Option Nat}
    {old new : Nat} {policy : FECPolicy} {fec : FECLeases}
    (keeps : Keeps bind key ⟨some endpoint, association, some old⟩)
    (placed : fec.book.place new = some (endpoint, policy)) :
    Keeps { bind with fec } key ⟨some endpoint, association, some new⟩ := by
  cases keeps with
  | plain keyless _ => exact .plain keyless placed
  | keyed hasKey _ associated => exact .keyed hasKey placed associated

theorem Keeps.mono (retains : Retains bind after)
    {key : Option Key} (keeps : Keeps bind key resource) :
    Keeps after key resource := by
  cases keeps with
  | nothing => exact .nothing
  | plain keyless placed => exact .plain keyless (retains.fec _ _ placed)
  | keyed hasKey placed associated =>
    exact .keyed hasKey (retains.fec _ _ placed) (retains.keys _ _ associated)

theorem Holds.mono (retains : Retains bind after)
    {peer : PeerRuntime} (holds : Holds bind peer) : Holds after peer where
  keeps resource listed := (holds.keeps resource listed).mono retains
  selected endpoint chosen := by
    obtain ⟨valid, canonical, function, given, placed⟩ := holds.selected endpoint chosen
    exact ⟨valid, canonical, function, given, retains.fec _ _ placed⟩

namespace Instance

/-- What the peers have, together with those that were replaced. -/
def held {α : Type} (i : Instance) (part : PeerRuntime → List α) : List α :=
  i.peers.gather part ++ i.orphans.flatMap part

def heldByOthers {α : Type} (i : Instance) (publicKey : String)
    (part : PeerRuntime → List α) : List α :=
  (i.peers.erase publicKey).gather part ++ i.orphans.flatMap part

variable {i after : Instance} {publicKey : String} {peer : PeerRuntime} {α : Type}
  {part : PeerRuntime → List α}

theorem held_of_lookup (part : PeerRuntime → List α)
    (found : i.peers.lookup publicKey = some peer) :
    (i.held part).Perm (part peer ++ i.heldByOthers publicKey part) := by
  rw [heldByOthers, ← append_assoc]
  exact (AList.gather_of_lookup found).append_right _

theorem held_insert (peers : after.peers = i.peers.insert publicKey peer)
    (orphans : after.orphans = i.orphans) :
    after.held part = part peer ++ i.heldByOthers publicKey part := by
  rw [held, heldByOthers, peers, orphans, AList.gather_insert, append_assoc]

/-- The function of a lease that was replaced: nobody has it, and it was never
called. -/
def Dropped (fec : FECLeases) (held : List Nat) (index : Nat) : Prop :=
  index ∉ held ∧ ∃ handle, fec.book.handle index = some handle ∧ handle.released = false

structure Accounted (i : Instance) : Prop where
  fec : i.bind.fec.book.Balanced (i.held PeerRuntime.fecFunctions)
  keys : i.bind.keys.endpointBook.Balanced (i.held PeerRuntime.keyFunctions)
  holds : ∀ publicKey peer, i.peers.lookup publicKey = some peer → Holds i.bind peer
  superseded : ∀ index ∈ i.superseded, Dropped i.bind.fec (i.held PeerRuntime.fecFunctions) index

/-- The functions for either part of some resources. -/
abbrev Functions := (PeerEndpointResources → Option Nat) → List Nat

def functions (i : Instance) : Functions :=
  fun part => i.held fun peer => peer.resources.filterMap part

/-- The functions of the others and of a peer with these resources. -/
def functionsWith (i : Instance) (publicKey : String) (resources : List PeerEndpointResources) :
    Functions :=
  fun part => resources.filterMap part ++
    i.heldByOthers publicKey fun peer => peer.resources.filterMap part

structure Settled (bind : EndpointBind) (held : Functions) (superseded : List Nat) : Prop where
  fec : bind.fec.book.Balanced (held PeerEndpointResources.releaseFECPolicy)
  keys : bind.keys.endpointBook.Balanced (held PeerEndpointResources.releaseAssociation)
  superseded : ∀ index ∈ superseded,
    Dropped bind.fec (held PeerEndpointResources.releaseFECPolicy) index

theorem Accounted.settled (accounted : i.Accounted) : Settled i.bind i.functions i.superseded :=
  ⟨accounted.fec, accounted.keys, accounted.superseded⟩

theorem Accounted.change (accounted : i.Accounted)
    (peers : after.peers = i.peers.insert publicKey peer)
    (orphans : after.orphans = i.orphans) (retains : Retains i.bind after.bind)
    (settled : Settled after.bind (i.functionsWith publicKey peer.resources) after.superseded)
    (holds : Holds after.bind peer) : after.Accounted := by
  have same : i.functionsWith publicKey peer.resources = after.functions := by
    funext part
    rw [functionsWith, functions, held_insert peers orphans]
  rw [same] at settled
  refine ⟨settled.fec, settled.keys, ?_, settled.superseded⟩
  rw [peers]
  exact AList.forall_insert holds fun other found lookup =>
    (accounted.holds other found lookup).mono retains

variable {fec : FECLeases} {held : List Nat} {index : Nat} {bind : EndpointBind}
  {endpoint : AddrPort}

section

variable (dropped : Dropped fec held index)

include dropped

theorem Dropped.of_same {later : FECLeases} {others : List Nat}
    (less : index ∉ held → index ∉ others)
    (same : later.book.handle index = fec.book.handle index) : Dropped later others index := by
  obtain ⟨unheld, handle, found, unreleased⟩ := dropped
  exact ⟨less unheld, handle, by rw [same, found], unreleased⟩

theorem Dropped.perm {others : List Nat} (perm : held.Perm others) : Dropped fec others index :=
  dropped.of_same (fun unheld listed => unheld (perm.mem_iff.mpr listed)) rfl

theorem Dropped.acquire {later : FECLeases} {fresh : Nat} (unused : fec.book.handle fresh = none)
    (others : ∀ other, other ≠ fresh → later.book.handle other = fec.book.handle other) :
    Dropped later (fresh :: held) index := by
  have different : index ≠ fresh := by
    rintro rfl
    obtain ⟨_, handle, found, _⟩ := dropped
    rw [unused] at found
    cases found
  refine dropped.of_same ?_ (others index different)
  intro unheld listed
  rcases mem_cons.mp listed with same | listed
  · exact different same
  · exact unheld listed

end

/-- The same functions, listed in another order. -/
theorem Settled.perm {superseded : List Nat} {functions later : Functions}
    (settled : Settled bind functions superseded)
    (perm : ∀ part, part ⟨none, none, none⟩ = none → (functions part).Perm (later part)) :
    Settled bind later superseded :=
  ⟨settled.fec.perm (perm _ rfl), settled.keys.perm (perm _ rfl),
    fun index listed => (settled.superseded index listed).perm (perm _ rfl)⟩

theorem Accounted.settled_of_lookup (accounted : i.Accounted)
    (found : i.peers.lookup publicKey = some peer) :
    Settled i.bind (i.functionsWith publicKey peer.resources) i.superseded :=
  accounted.settled.perm fun _ _ => held_of_lookup _ found

theorem retireEndpoint_leases (bind : EndpointBind) (endpoint : AddrPort) :
    (bind.retireEndpoint endpoint).fec = bind.fec ∧
      (bind.retireEndpoint endpoint).keys = bind.keys := by
  unfold EndpointBind.retireEndpoint
  split
  · split <;> exact ⟨rfl, rfl⟩
  · exact ⟨rfl, rfl⟩

/-- The functions that are called leave the rest of the bind alone. -/
structure CallsAll (i : Instance) (called : Functions) (after : Instance) : Prop where
  fec : after.bind.fec =
    (called PeerEndpointResources.releaseFECPolicy).foldl callRelease i.bind.fec
  keys : after.bind.keys =
    (called PeerEndpointResources.releaseAssociation).foldl callEndpointRelease i.bind.keys

structure Calls (i : Instance) (called : Functions) (after : Instance) : Prop where
  fec : after.bind.fec =
    (called PeerEndpointResources.releaseFECPolicy).foldl callRelease i.bind.fec
  keys : after.bind.keys.endpointBook = ((called PeerEndpointResources.releaseAssociation).foldl
    callEndpointRelease i.bind.keys).endpointBook

theorem CallsAll.trans {mid : Instance} {called later : Functions}
    (first : CallsAll i called mid) (second : CallsAll mid later after) :
    CallsAll i (fun part => called part ++ later part) after :=
  ⟨by rw [second.fec, first.fec, foldl_append], by rw [second.keys, first.keys, foldl_append]⟩

theorem retireEndpoint_calls (processed : String) (endpoint : Option AddrPort) :
    CallsAll i (fun _ => []) (i.retireEndpoint processed endpoint) := by
  cases endpoint with
  | none => exact ⟨rfl, rfl⟩
  | some endpoint => exact ⟨(retireEndpoint_leases _ _).1, (retireEndpoint_leases _ _).2⟩

theorem releaseAssociation_calls (release : Option Nat) :
    CallsAll i (fun part => (part ⟨none, release, none⟩).toList)
      (i.releaseAssociation release) := by
  cases release <;> exact ⟨rfl, rfl⟩

theorem releaseFECPolicy_calls (release : Option Nat) :
    CallsAll i (fun part => (part ⟨none, none, release⟩).toList) (i.releaseFECPolicy release) := by
  cases release <;> exact ⟨rfl, rfl⟩

theorem settleEndpoints_calls (publicKey : String) (active : Option AddrPort)
    (resources : List PeerEndpointResources) (i : Instance) :
    CallsAll i (resources.filterMap ·) (settleEndpoints publicKey active resources i) := by
  induction resources generalizing i with
  | nil => exact ⟨rfl, rfl⟩
  | cons resource rest ih =>
    have retired : CallsAll i (fun _ => []) (if resource.endpoint ≠ active then
        i.retireEndpoint publicKey resource.endpoint else i) := by
      split
      · exact retireEndpoint_calls _ _
      · exact ⟨rfl, rfl⟩
    have here := (retired.trans (releaseAssociation_calls resource.releaseAssociation)).trans
      (releaseFECPolicy_calls resource.releaseFECPolicy)
    obtain ⟨fec, keys⟩ := here.trans (ih _)
    refine ⟨fec.trans ?_, keys.trans ?_⟩
    · cases given : resource.releaseFECPolicy <;> simp [given]
    · cases given : resource.releaseAssociation <;> simp [given]

theorem releasePeerRuntime_calls (publicKey : String) (peer : PeerRuntime) :
    Calls i (fun part => peer.obsoleteEndpoints.filterMap part ++ (part peer.current).toList)
      (i.releasePeerRuntime publicKey peer) := by
  obtain ⟨fec, keys⟩ := (((retireEndpoint_calls (i := i) publicKey
    peer.status.selectedEndpoint).trans
    (settleEndpoints_calls publicKey none peer.obsoleteEndpoints _)).trans
    (releaseFECPolicy_calls peer.releaseFECPolicy)).trans
    (releaseAssociation_calls peer.releaseAssociation)
  simp only [nil_append, Option.toList_none, append_nil] at fec keys
  exact ⟨(releaseReceiveKey_rekeys _ _).quiet.fec.trans fec,
    (releaseReceiveKey_rekeys _ _).quiet.keys.trans (congrArg endpointBook keys)⟩

theorem CallsAll.calls {called : Functions} (all : CallsAll i called after) :
    Calls i called after :=
  ⟨all.fec, congrArg endpointBook all.keys⟩

section Calls

variable {called held : Functions} (calls : Calls i called after)

include calls

theorem Calls.retains : Retains i.bind after.bind := by
  refine ⟨?_, ?_⟩
  · intro index target placed
    rw [calls.fec, LeaseBook.place_foldl FECLeases.book fun _ => place_callRelease, placed]
  · intro index target placed
    rw [calls.keys, LeaseBook.place_foldl endpointBook fun _ => place_callEndpointRelease, placed]

theorem Calls.settled {superseded : List Nat}
    (settled : Settled i.bind (fun part => called part ++ held part) superseded) :
    Settled after.bind held superseded := by
  obtain ⟨fec, handles⟩ := LeaseBook.Balanced.releaseAll FECLeases.book
    (fun _ _ _ => callRelease_releases) settled.fec
  obtain ⟨keys, _⟩ := LeaseBook.Balanced.releaseAll endpointBook
    (fun _ _ _ => callEndpointRelease_releases) settled.keys
  rw [← calls.fec] at fec handles
  refine ⟨fec, calls.keys ▸ keys, fun index listed => ?_⟩
  have dropped := settled.superseded index listed
  exact dropped.of_same (fun unheld listed => unheld (mem_append_right _ listed))
    (handles index fun listed => dropped.1 (mem_append_left _ listed))

end Calls

/-! ## The moves keep the accounts -/

theorem Accounted.quiet (accounted : i.Accounted) (quiet : i.Quiet after) : after.Accounted := by
  have same : ∀ {α : Type} (part : PeerRuntime → List α), after.held part = i.held part := by
    intro α part
    rw [held, held, quiet.peers, quiet.orphans]
  have retains : Retains i.bind after.bind := by
    refine ⟨?_, ?_⟩
    · rw [quiet.fec]
      exact fun _ _ placed => placed
    · rw [quiet.keys]
      exact fun _ _ placed => placed
  refine ⟨?_, ?_, ?_, ?_⟩
  · rw [quiet.fec, same]
    exact accounted.fec
  · rw [quiet.keys, same]
    exact accounted.keys
  · intro publicKey peer found
    rw [quiet.peers] at found
    exact (accounted.holds publicKey peer found).mono retains
  · rw [quiet.superseded, quiet.fec, same]
    exact accounted.superseded

theorem Accounted.borrow (accounted : i.Accounted) (borrows : Borrows i.bind bind) :
    { i with bind }.Accounted := by
  have sameFEC : ∀ {endpoint : AddrPort} {policy : FECPolicy} {fec : FECLeases} {index : Nat},
      i.bind.fec.acquireEndpointFECPolicy (some endpoint) policy = (.ok index, fec) →
      (fec.callRelease index).book.Balanced (i.held fecFunctions) ∧
      (∀ index' target, i.bind.fec.book.place index' = some target →
        (fec.callRelease index).book.place index' = some target) ∧
      ∀ dropped ∈ i.superseded, Dropped (fec.callRelease index) (i.held fecFunctions) dropped := by
    intro endpoint policy fec index acquired
    obtain ⟨_, _, acquires⟩ := acquire_acquires acquired
    have balanced := accounted.fec.acquire acquires
    have releases := callRelease_releases balanced mem_cons_self
    refine ⟨balanced.release releases, ?_, ?_⟩
    · intro index' target placed
      rw [place_callRelease]
      exact acquires.place placed
    · intro dropped listed
      have later := (accounted.superseded dropped listed).acquire acquires.unused
        acquires.otherHandles
      have different : dropped ≠ index := fun same => later.1 (same ▸ mem_cons_self)
      exact later.of_same (fun unheld listed => unheld (mem_cons_of_mem _ listed))
        (releases.otherHandles dropped different)
  cases borrows with
  | policy acquired =>
    obtain ⟨balanced, placed, superseded⟩ := sameFEC acquired
    refine ⟨balanced, accounted.keys, ?_, superseded⟩
    intro publicKey peer found
    refine (accounted.holds publicKey peer found).mono ⟨placed, ?_⟩
    exact fun _ _ placed => placed
  | both acquired keyed =>
    obtain ⟨balanced, placed, superseded⟩ := sameFEC acquired
    obtain ⟨_, _, acquires⟩ := acquireEndpointKey_acquires keyed
    have balancedKeys := accounted.keys.acquire acquires
    have releases := callEndpointRelease_releases balancedKeys mem_cons_self
    refine ⟨balanced, balancedKeys.release releases, ?_, superseded⟩
    intro publicKey peer found
    refine (accounted.holds publicKey peer found).mono ⟨placed, ?_⟩
    intro index target placedKey
    rw [place_callEndpointRelease]
    exact acquires.place placedKey

/-- A peer moves on, with the leases that it was given for its next endpoint. -/
theorem Accounted.switch (accounted : i.Accounted) (found : i.peers.lookup publicKey = some peer)
    {endpoint : Option AddrPort} {association fecPolicy : Option Nat} (generation : Nat)
    (object : Option Nat) (sequence : UInt64) (retains : Retains i.bind bind)
    (settled : Settled bind (fun part => (part ⟨endpoint, association, fecPolicy⟩).toList ++
      i.functions part) i.superseded)
    (keeps : Keeps bind peer.obfsKey ⟨endpoint, association, fecPolicy⟩)
    (selected : ∀ chosen, endpoint = some chosen → chosen.port ≠ 0 ∧ canonicalAddrPort chosen =
      chosen ∧ ∃ function, fecPolicy = some function ∧ bind.fec.book.place function = some (chosen,
      peer.fecPolicy)) :
    ({ i with bind }.setPeer publicKey
      (peer.switch endpoint generation association fecPolicy object sequence)).Accounted := by
  have holds := accounted.holds publicKey peer found
  obtain ⟨unkeyed, policy⟩ : (peer.switch endpoint generation association fecPolicy object
      sequence).obfsKey = peer.obfsKey ∧ (peer.switch endpoint generation association fecPolicy
      object sequence).fecPolicy = peer.fecPolicy := by
    unfold PeerRuntime.switch PeerRuntime.retainEndpointResources
    split <;> exact ⟨rfl, rfl⟩
  refine accounted.change rfl rfl retains (settled.perm fun part nothing => ?_) ⟨?_, ?_⟩
  · refine ((held_of_lookup _ found).append_left _).trans ?_
    rw [← append_assoc]
    exact (peer.switch_resources endpoint generation association fecPolicy object sequence
      part nothing).symm.append_right _
  · intro resource listed
    rw [unkeyed]
    have all : resource ∈ (⟨endpoint, association, fecPolicy⟩ : PeerEndpointResources) ::
        peer.retainEndpointResources.obsoleteEndpoints := listed
    rcases mem_cons.mp all with rfl | listed
    · exact keeps
    · refine (holds.keeps resource ?_).mono retains
      unfold PeerRuntime.retainEndpointResources at listed
      split at listed
      · exact mem_cons_of_mem _ listed
      · rcases mem_append.mp listed with listed | listed
        · exact mem_cons_of_mem _ listed
        · rw [mem_singleton] at listed
          subst listed
          exact mem_cons_self
  · rw [policy]
    exact selected

theorem parseEndpoint_eq (bind : EndpointBind) (endpoint : AddrPort) :
    ∃ object objects endpoints, bind.parseEndpoint endpoint =
      (object, { bind with objects, endpoints }) := by
  unfold EndpointBind.parseEndpoint
  split
  · split <;> exact ⟨_, _, _, rfl⟩
  · exact ⟨_, _, _, rfl⟩

theorem canonical_of_valid {chosen : AddrPort} (valid : endpoint.port ≠ 0)
    (canonical : canonicalAddrPort endpoint = endpoint)
    (parsed : ArmorBind.canonical (some endpoint) = .ok chosen) : chosen = endpoint := by
  simp only [ArmorBind.canonical, valid, ↓reduceIte, canonical, Except.ok.injEq] at parsed
  exact parsed.symm

section

variable (accounted : i.Accounted) (found : i.peers.lookup publicKey = some peer)

include accounted found

theorem Accounted.install {generation : Nat} {release : Option Nat} {fecRelease : Nat}
    (valid : endpoint.port ≠ 0) (canonical : canonicalAddrPort endpoint = endpoint)
    (acquired : acquireEndpoint i.bind peer endpoint = (.ok (release, fecRelease), bind)) :
    ({ i with bind := (bind.parseEndpoint endpoint).2 }.setPeer publicKey
      (peer.switch (some endpoint) generation release (some fecRelease)
        (some (bind.parseEndpoint endpoint).1)
        (bind.parseEndpoint endpoint).2.receiveSequence)).Accounted := by
  obtain ⟨object, objects, endpoints, parsing⟩ := parseEndpoint_eq bind endpoint
  have leased : i.bind.fec.acquireEndpointFECPolicy (some endpoint) peer.fecPolicy =
      (.ok fecRelease, bind.fec) := by
    cases acquireEndpoint_acquires acquired with
    | plain _ leased | keyed _ leased _ => exact leased
  obtain ⟨chosen, parsed, acquires⟩ := acquire_acquires leased
  obtain rfl := canonical_of_valid valid canonical parsed
  have placed : bind.fec.book.place fecRelease = some (chosen, peer.fecPolicy) := by
    rw [LeaseBook.place, acquires.handed]
    rfl
  -- The key of the endpoint, if the peer has one.
  obtain ⟨retained, keys, keeps⟩ : (∀ index target,
      i.bind.keys.endpointBook.place index = some target →
        bind.keys.endpointBook.place index = some target) ∧
      bind.keys.endpointBook.Balanced (release.toList ++ i.held keyFunctions) ∧
      Keeps bind peer.obfsKey ⟨some chosen, release, some fecRelease⟩ := by
    cases acquireEndpoint_acquires acquired with
    | plain keyless => exact ⟨fun _ _ placed => placed, accounted.keys, .plain keyless placed⟩
    | keyed hasKey _ keyed =>
      obtain ⟨same, parsedKey, acquiresKey⟩ := acquireEndpointKey_acquires keyed
      obtain rfl := canonical_of_valid valid canonical parsedKey
      refine ⟨fun _ _ => acquiresKey.place, accounted.keys.acquire acquiresKey,
        .keyed hasKey placed ?_⟩
      rw [LeaseBook.place, acquiresKey.handed]
      rfl
  have parses : Retains bind { bind with objects, endpoints } :=
    ⟨fun _ _ placed => placed, fun _ _ placed => placed⟩
  rw [parsing]
  refine accounted.switch found generation _ _ ⟨fun _ _ => acquires.place, retained⟩
    ⟨accounted.fec.acquire acquires, keys, fun index listed => ?_⟩
    (keeps.mono parses) ?_
  · exact (accounted.superseded index listed).acquire acquires.unused acquires.otherHandles
  · rintro _ ⟨⟩
    exact ⟨valid, canonical, fecRelease, rfl, placed⟩

theorem Accounted.clear (generation : Nat) : (i.setPeer publicKey
      (peer.switch none generation none none none i.bind.receiveSequence)).Accounted :=
  accounted.switch found generation _ _ (.refl _)
    ⟨accounted.fec, accounted.keys, accounted.superseded⟩ .nothing nofun

theorem Accounted.same {other : PeerRuntime} (resources : other.resources = peer.resources)
    (key : other.obfsKey = peer.obfsKey) (policy : other.fecPolicy = peer.fecPolicy) :
    (i.setPeer publicKey other).Accounted := by
  have current : other.current = peer.current := (List.cons.inj resources).1
  have holds := accounted.holds publicKey peer found
  refine accounted.change rfl rfl (.refl _) ?_ ⟨?_, ?_⟩
  · rw [resources]
    exact accounted.settled_of_lookup found
  · rw [resources, key]
    exact holds.keeps
  · intro endpoint chosen
    rw [policy]
    have selected : peer.status.selectedEndpoint = some endpoint :=
      (congrArg PeerEndpointResources.endpoint current).symm.trans chosen
    obtain ⟨valid, canonical, function, given, placed⟩ := holds.selected endpoint selected
    exact ⟨valid, canonical, function,
      (congrArg PeerEndpointResources.releaseFECPolicy current).trans given, placed⟩

theorem Accounted.settle :
    ((settleEndpoints publicKey peer.status.selectedEndpoint peer.obsoleteEndpoints i).setPeer
      publicKey { peer with obsoleteEndpoints := [] }).Accounted := by
  have frame := settleEndpoints_frame publicKey peer.status.selectedEndpoint
    peer.obsoleteEndpoints i
  have calls := (settleEndpoints_calls publicKey peer.status.selectedEndpoint
    peer.obsoleteEndpoints i).calls
  have holds := accounted.holds publicKey peer found
  have settled : Settled i.bind (fun part => peer.obsoleteEndpoints.filterMap part ++
      i.functionsWith publicKey [peer.current] part) i.superseded := by
    refine (accounted.settled_of_lookup found).perm fun part _ => ?_
    rw [functionsWith, functionsWith, ← append_assoc, ← filterMap_append]
    exact ((perm_append_singleton peer.current _).symm.filterMap part).append_right _
  have later := calls.settled settled
  rw [← frame.superseded] at later
  refine @Accounted.change i _ publicKey { peer with obsoleteEndpoints := [] } accounted
    (by rw [← frame.peers]; rfl) frame.orphans calls.retains later ⟨?_, ?_⟩
  · intro resource listed
    rw [resources, mem_singleton] at listed
    subst listed
    exact (holds.keeps peer.current mem_cons_self).mono calls.retains
  · exact (holds.mono calls.retains).selected

theorem Accounted.drop : (i.withoutPeer publicKey peer).Accounted := by
  have frame := releasePeerRuntime_frame (i := i) publicKey peer
  have calls := releasePeerRuntime_calls (i := i) publicKey peer
  have settled : Settled i.bind (fun part => (peer.obsoleteEndpoints.filterMap part ++
      (part peer.current).toList) ++ i.functionsWith publicKey [] part) i.superseded := by
    refine (accounted.settled_of_lookup found).perm fun part _ => List.Perm.append_right _ ?_
    rw [resources, filterMap_cons]
    cases part peer.current with
    | none => simp
    | some item => exact (perm_append_singleton item _).symm
  have peers : (i.withoutPeer publicKey peer).peers = i.peers.erase publicKey := by
    rw [← frame.peers]
    rfl
  have same : i.functionsWith publicKey [] = (i.withoutPeer publicKey peer).functions := by
    funext part
    rw [functionsWith, functions, held, peers,
      show (i.withoutPeer publicKey peer).orphans = i.orphans from frame.orphans]
    rfl
  obtain ⟨fec, keys, superseded⟩ := same ▸ calls.settled settled
  refine ⟨fec, keys, ?_, frame.superseded ▸ superseded⟩
  intro other left lookup
  rw [peers] at lookup
  exact (accounted.holds other left (AList.lookup_erase_cases lookup).2).mono calls.retains

end

theorem unused_resources (unused : peer.Unused) : peer.resources = [⟨none, none, none⟩] := by
  rw [resources, unused.obsolete, current, unused.status, unused.association, unused.fecPolicy]

theorem holds_of_unused (unused : peer.Unused) (bind : EndpointBind) : Holds bind peer := by
  refine ⟨?_, ?_⟩
  · rw [unused_resources unused]
    intro resource listed
    rw [mem_singleton] at listed
    subst listed
    exact .nothing
  · intro endpoint chosen
    rw [unused.status] at chosen
    cases chosen

theorem Accounted.add (accounted : i.Accounted) (unused : peer.Unused) :
    { i.setPeer publicKey peer with
      orphans := i.orphans ++ (i.peers.lookup publicKey).toList }.Accounted := by
  have empty := unused_resources unused
  have perm : ∀ {α : Type} (part : PeerRuntime → List α), part peer = [] →
      (i.held part).Perm ({ i.setPeer publicKey peer with
        orphans := i.orphans ++ (i.peers.lookup publicKey).toList }.held part) := by
    intro α part nothing
    rw [held]
    change List.Perm _ ((i.peers.insert publicKey peer).gather part ++
      (i.orphans ++ (i.peers.lookup publicKey).toList).flatMap part)
    rw [AList.gather_insert, nothing]
    cases found : i.peers.lookup publicKey with
    | none =>
      rw [AList.gather_erase_of_none found]
      simp
    | some old =>
      refine ((AList.gather_of_lookup found).append_right _).trans ?_
      rw [append_assoc]
      refine perm_append_comm.trans ?_
      simp
  have noFEC : peer.fecFunctions = [] := by rw [fecFunctions, empty]; rfl
  have noKeys : peer.keyFunctions = [] := by rw [keyFunctions, empty]; rfl
  refine ⟨accounted.fec.perm (perm _ noFEC), accounted.keys.perm (perm _ noKeys), ?_, ?_⟩
  · exact AList.forall_insert (holds_of_unused unused _) accounted.holds
  · exact fun index listed => (accounted.superseded index listed).perm (perm _ noFEC)

theorem Accounted.policy (accounted : i.Accounted) (found : i.peers.lookup publicKey = some peer)
    {new : FECPolicy} (changed : i.changeFECPolicy publicKey peer peer.fecPolicy new = .ok after) :
    after.Accounted := by
  have holds := accounted.holds publicKey peer found
  have settled := accounted.settled_of_lookup found
  cases changeFECPolicy_changes changed with
  | alone unselected =>
    refine accounted.change rfl rfl (.refl _) settled ⟨holds.keeps, ?_⟩
    intro endpoint chosen
    rw [unselected] at chosen
    cases chosen
  | @leased endpoint release fec selected replaced =>
    obtain ⟨valid, canonical, function, given, placed⟩ := holds.selected endpoint selected
    obtain ⟨chosen, parsed, replaces⟩ := replace_replaces replaced
    obtain rfl := canonical_of_valid valid canonical parsed
    have own : i.functionsWith publicKey peer.resources PeerEndpointResources.releaseFECPolicy =
        function :: (peer.obsoleteEndpoints.filterMap PeerEndpointResources.releaseFECPolicy ++
          i.heldByOthers publicKey fecFunctions) := by
      simp only [functionsWith, resources, current, given, filterMap_cons]
      rfl
    have balanced := own ▸ settled.fec
    have holder : i.bind.fec.book.isFor chosen function = true := by
      rw [LeaseBook.isFor_of_place placed]
      exact decide_eq_true rfl
    have placedNew : fec.book.place release = some (chosen, new) := by
      rw [LeaseBook.place, replaces.handed]
      rfl
    have later := balanced.replace holder replaces
    have retains : Retains i.bind { i.bind with fec } :=
      ⟨fun _ _ => replaces.place, fun _ _ placed => placed⟩
    refine accounted.change rfl rfl retains ⟨later, settled.keys, ?_⟩ ⟨?_, ?_⟩
    · intro index listed
      have dropped : Dropped i.bind.fec
          (peer.obsoleteEndpoints.filterMap PeerEndpointResources.releaseFECPolicy ++
            i.heldByOthers publicKey fecFunctions) index := by
        rcases mem_append.mp listed with listed | listed
        · exact (own ▸ settled.superseded index listed).of_same
            (fun unheld listed => unheld (mem_cons_of_mem _ listed)) rfl
        · rw [given] at listed
          obtain rfl : index = function := by simpa using listed
          obtain ⟨handle, handed, unreleased, _⟩ := balanced.agrees index mem_cons_self
          exact ⟨(nodup_cons.mp balanced.nodup).1, handle, handed, unreleased⟩
      exact dropped.acquire replaces.unused replaces.otherHandles
    · intro resource listed
      rcases mem_cons.mp listed with rfl | listed
      · have before := holds.keeps peer.current mem_cons_self
        rw [current, selected, given] at before
        rw [current, selected]
        exact before.renew placedNew
      · exact (holds.keeps resource (mem_cons_of_mem _ listed)).mono retains
    · intro endpoint same
      have equal : chosen = endpoint := Option.some.inj (selected.symm.trans same)
      subst equal
      exact ⟨valid, canonical, release, rfl, placedNew⟩

theorem Accounted.move {permits : Instance → String → AddrPort → Prop}
    (accounted : i.Accounted) (moves : Moves permits i after) : after.Accounted := by
  cases moves with
  | quiet quiet => exact accounted.quiet quiet
  | borrow borrows => exact accounted.borrow borrows
  | install found newer permitted valid canonical acquired =>
    exact accounted.install found valid canonical acquired
  | clear found newer => exact accounted.clear found _
  | settle found => exact accounted.settle found
  | authenticate found => exact accounted.same found rfl rfl rfl
  | policy found changed => exact accounted.policy found changed
  | add unused => exact accounted.add unused
  | drop found => exact accounted.drop found

/-! ## Runs -/

/-- A core that has not set an endpoint yet. -/
structure Fresh (i : Instance) : Prop where
  peers : ∀ publicKey peer, i.peers.lookup publicKey = some peer → peer.Unused
  fec : i.bind.fec = {}
  keys : ∀ endpoint, i.bind.keys.endpointBook.lease endpoint = none
  objects : i.bind.objects = [] ∧ i.bind.endpoints = ∅
  retirements : i.retirements = []
  superseded : i.superseded = []
  orphans : i.orphans = []
  sequence : i.bind.receiveSequence = 0

theorem Fresh.configurePeer (fresh : i.Fresh) (peer : ConfiguredPeer) :
    (i.configurePeer peer).Fresh := by
  obtain ⟨peers, fec, keys, objects, retirements, superseded, orphans, sequence⟩ := fresh
  unfold Instance.configurePeer
  split
  · exact ⟨AList.forall_insert ⟨rfl, rfl, rfl, rfl, rfl⟩ peers, fec, keys, objects, retirements,
      superseded, orphans, sequence⟩
  · refine ⟨AList.forall_insert ⟨rfl, rfl, rfl, rfl, rfl⟩ peers, fec, ?_, objects, retirements,
      superseded, orphans, sequence⟩
    intro endpoint
    rw [← keys endpoint]
    exact congrArg (fun book => book.lease endpoint) endpointBook_acquireReceiveKey

theorem fresh_newInstance (settings : TransportSettings) (config : Bind.Config)
    (configured : List ConfiguredPeer) : (newInstance settings config configured).Fresh := by
  have all : ∀ (peers : List ConfiguredPeer) (start : Instance), start.Fresh →
      (peers.foldl Instance.configurePeer start).Fresh := by
    intro peers
    induction peers with
    | nil => exact fun _ fresh => fresh
    | cons peer rest ih => exact fun _ fresh => ih _ (fresh.configurePeer peer)
  refine all _ _ ⟨?_, rfl, fun _ => rfl, ⟨rfl, rfl⟩, rfl, rfl, rfl, rfl⟩
  intro publicKey peer lookup
  simp at lookup

theorem Fresh.accounted (fresh : i.Fresh) : i.Accounted := by
  have none : ∀ {part : PeerEndpointResources → Option Nat}, part ⟨none, none, none⟩ = none →
      (i.held fun peer => peer.resources.filterMap part) = [] := by
    intro part nothing
    rw [held, fresh.orphans, flatMap_nil, append_nil, eq_nil_iff_forall_not_mem]
    intro index listed
    obtain ⟨_, peer, lookup, listed⟩ := AList.mem_gather.mp listed
    rw [unused_resources (fresh.peers _ _ lookup), filterMap_cons, nothing] at listed
    cases listed
  have noFEC : i.held fecFunctions = [] := none rfl
  have noKeys : i.held keyFunctions = [] := none rfl
  refine ⟨?_, ?_, fun _ _ lookup => holds_of_unused (fresh.peers _ _ lookup) _, ?_⟩
  · rw [noFEC, fresh.fec]
    exact ⟨nodup_nil, nofun, fun _ => rfl⟩
  · rw [noKeys]
    refine ⟨nodup_nil, nofun, ?_⟩
    intro endpoint
    rw [LeaseBook.refs, fresh.keys]
    rfl
  · rw [fresh.superseded]
    exact nofun

theorem installs_any {call : CoreCall} : Installs (fun _ _ _ => True) i call := by
  unfold Installs
  split
  · exact fun _ => trivial
  · trivial

theorem accounted_step (accounted : i.Accounted) (orderly : i.ledger.Orderly)
    (call : CoreCall) : (i.step call).Accounted :=
  (step_path orderly call installs_any).holds (fun _ _ moves held => held.move moves) accounted

theorem mem_held {part : PeerEndpointResources → Option Nat}
    {function : Nat} (found : i.peers.lookup publicKey = some peer)
    (listed : resource ∈ peer.resources) (has : part resource = some function) :
    function ∈ i.held fun peer => peer.resources.filterMap part := by
  refine mem_append_left _ (AList.mem_gather.mpr ⟨publicKey, peer, found, ?_⟩)
  exact mem_filterMap.mpr ⟨resource, listed, has⟩

/-- The lease of an endpoint has the policy of every peer that is at it. -/
theorem Accounted.lease_of_selected (accounted : i.Accounted)
    (found : i.peers.lookup publicKey = some peer)
    (selected : peer.status.selectedEndpoint = some endpoint) :
    i.bind.fec.book.lease endpoint = some (peer.fecPolicy, i.bind.fec.book.refs endpoint) := by
  obtain ⟨_, _, function, given, placed⟩ :=
    (accounted.holds publicKey peer found).selected endpoint selected
  have member : function ∈ i.held fecFunctions :=
    mem_held found (mem_cons_self : peer.current ∈ peer.resources) given
  exact accounted.fec.lease_of_place member placed

theorem accounted_of_reaches {allowed : Instance → CoreCall → Prop}
    {settings : TransportSettings} {config : Bind.Config} {configured : List ConfiguredPeer}
    (reached : Reaches allowed (newInstance settings config configured) i) : i.Accounted :=
  holds_of_reaches (fun _ _ _ => True) (orderly_newInstance settings config configured)
    (fun _ _ _ => installs_any)
    (fun _ _ moves accounted => accounted.move moves)
    (fresh_newInstance settings config configured).accounted reached

section

variable (settings : TransportSettings) (config : Bind.Config) (configured : List ConfiguredPeer)

/-- The core after some calls, whatever fails in them. -/
def coreAfter (calls : List CoreCall) : Instance :=
  calls.foldl step (newInstance settings config configured)

theorem coreAfter_sound (calls : List CoreCall) :
    (coreAfter settings config configured calls).ledger.Orderly ∧
      (coreAfter settings config configured calls).Accounted := by
  induction calls using List.reverseRecOn with
  | nil =>
    exact ⟨orderly_newInstance .., (fresh_newInstance settings config configured).accounted⟩
  | append_singleton calls call ih =>
    rw [coreAfter, foldl_append]
    exact ⟨orderly_step ih.1 call, accounted_step ih.2 ih.1 call⟩

/-- The active transaction is the open one.  Until it is committed, the device
has none of the peers that it adds. -/
theorem active_transaction_only_open (calls : List CoreCall) :
    let i := coreAfter settings config configured calls
    (∀ transactionID, (∃ transaction ∈ i.peerTransactions.lookup transactionID, transaction.Open) ↔
      transactionID ≠ "" ∧ i.activePeerTransaction = transactionID) ∧
    ∀ transactionID, ∀ transaction ∈ i.peerTransactions.lookup transactionID,
      transaction.state = .prepared → ∀ key,
        (PeerOperation.add, key) ∈ transaction.prepared.mutations → key ∉ i.device.peers := by
  have orderly := (coreAfter_sound settings config configured calls).1
  refine ⟨fun transactionID => ⟨?_, ?_⟩, orderly.absent⟩
  · rintro ⟨transaction, found, isOpen⟩
    exact ⟨orderly.named _ _ found, orderly.single _ _ found isOpen⟩
  · rintro ⟨named, rfl⟩
    exact orderly.active named

/-- Peers that are at one endpoint have one policy, and the endpoint is leased
under it. -/
theorem policies_agree_at_endpoint (calls : List CoreCall) :
    let i := coreAfter settings config configured calls
    ∀ endpoint, ∃ policy, ∀ publicKey, ∀ peer ∈ i.peers.lookup publicKey,
      peer.status.selectedEndpoint = some endpoint →
        endpoint.port ≠ 0 ∧ canonicalAddrPort endpoint = endpoint ∧ peer.fecPolicy = policy ∧
          i.bind.fec.book.lease endpoint = some (policy, i.bind.fec.book.refs endpoint) := by
  intro i endpoint
  have accounted := (coreAfter_sound settings config configured calls).2
  refine ⟨(i.bind.fec.book.lease endpoint).elim .balanced Prod.fst, ?_⟩
  intro publicKey peer found selected
  have leased := accounted.lease_of_selected found selected
  obtain ⟨valid, canonical, -⟩ := (accounted.holds _ _ found).selected endpoint selected
  exact ⟨valid, canonical, by rw [leased]; rfl, by rw [leased]; rfl⟩

end

end Instance

end WgQuic.Core
