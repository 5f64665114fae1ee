import WgQuic.Obfs.Segments

/-!
# The receive keys of a bind

A bind counts the leases of every receive key and registers a key with the
carrier's connection while it has one.  A reopened bind registers them again,
next to its configured keys and the keys of its endpoints.
-/

namespace WgQuic.Bind

open Fec (Bytes)
open Obfs SalamanderConn AList

inductive ObfsMode where
  | none
  | salamander
  | other (name : String)
deriving DecidableEq, Repr

structure Config where
  obfsMode : ObfsMode
  obfsKeys : List Key

structure EndpointKeyLease where
  key : Key
  refs : Nat

/-- A release function of the connection is set while the bind is open; it
always belongs to the current carrier. -/
structure ReceiveKeyLease where
  refs : Nat := 0
  registered : Bool := false

/-- A release function that was returned; it works once. -/
structure ReceiveHandle where
  key : Key
  released : Bool := false
deriving DecidableEq

structure EndpointHandle where
  endpoint : AddrPort
  key : Key
  released : Bool := false
deriving DecidableEq

structure ArmorBind where
  cfg : Config
  /-- The obfuscating connection of an open carrier, if it has one. -/
  state : Option (Option SalamanderConn) := none
  obfsResolved : AList (fun _ : AddrPort => Key) := ∅
  obfsDynamic : AList (fun _ : AddrPort => EndpointKeyLease) := ∅
  obfsReceive : AList (fun _ : Key => ReceiveKeyLease) := ∅
  receiveHandles : List ReceiveHandle := []
  endpointHandles : List EndpointHandle := []
  /-- The endpoint keys the last `Open` gave to the connection. -/
  openedKeys : List Key := []

inductive BindError where
  /-- `conn.ErrBindAlreadyOpen` -/
  | alreadyOpen
  | carrier (cause : String)
  /-- "unsupported obfuscation mode" -/
  | unsupportedMode (name : String)
  /-- "valid numeric endpoint is required" -/
  | invalidEndpoint (cause : String)
  /-- "endpoint … is already associated with a different obfuscation key" -/
  | otherKey (endpoint : AddrPort)
deriving DecidableEq, Repr

/-- A map is ranged over in any order. -/
def inOrder {α : Type} [DecidableEq α] (order items : List α) : List α :=
  if order.Perm items then order else items

theorem inOrder_perm {α : Type} [DecidableEq α] (order items : List α) :
    (inOrder order items).Perm items := by
  unfold inOrder
  split
  · assumption
  · exact .refl _

namespace ArmorBind

/-- `AcquireReceiveKey` of the carrier. -/
def carrierAcquire (b : ArmorBind) (key : Key) : ArmorBind :=
  { b with state := b.state.map fun conn =>
      conn.map fun c => c.acquireReceiveKey key }

/-- The loop of `Open` over the receive leases. -/
def registerLoop : List Key → ArmorBind → ArmorBind
  | [], b => b
  | key :: rest, b =>
    let lease := (b.obfsReceive.lookup key).getD {}
    let b := b.carrierAcquire key
    registerLoop rest { b with
      obfsReceive := b.obfsReceive.insert key
        { lease with registered := true } }

/-- The peers `quiccarrier.Open` wraps the connection with. -/
def peerKeys (b : ArmorBind) (endpoints : List (AddrPort × Key)) : List PeerKey :=
  b.cfg.obfsKeys.map (fun key => { key := key }) ++
    endpoints.map fun (endpoint, key) => { key := key, endpoint := some endpoint }

def endpointEntries (b : ArmorBind) : List (AddrPort × Key) :=
  b.obfsResolved.entries.map fun entry => (entry.1, entry.2)

/-- `Open`.  The carrier may fail to come up; the orders are those of the two
ranges over maps. -/
def open_ (b : ArmorBind) (failure : Option String) (endpoints : List (AddrPort × Key))
    (leases : List Key) : Option BindError × ArmorBind :=
  if b.state.isSome then (some .alreadyOpen, b)
  else
    match failure, b.cfg.obfsMode with
    | some cause, _ => (some (.carrier cause), b)
    | none, .other name => (some (.unsupportedMode name), b)
    | none, .none =>
      (none, registerLoop (inOrder leases b.obfsReceive.keys)
        { b with state := some none, openedKeys := [] })
    | none, .salamander =>
      let endpoints := inOrder endpoints b.endpointEntries
      (none, registerLoop (inOrder leases b.obfsReceive.keys)
        { b with
          state := some (some
            (wrapKeyedSalamander (b.peerKeys endpoints)))
          openedKeys := endpoints.map Prod.snd })

/-- The loop of `Close` over the receive leases. -/
def closeLoop : List Key → ArmorBind → ArmorBind
  | [], b => b
  | key :: rest, b =>
    let lease := (b.obfsReceive.lookup key).getD {}
    closeLoop rest { b with
      obfsReceive := b.obfsReceive.insert key
        { lease with registered := false } }

def close (b : ArmorBind) : ArmorBind :=
  closeLoop b.obfsReceive.keys { b with state := none }

def acquireReceiveKey (b : ArmorBind) (key : Key) : ArmorBind :=
  let lease := (b.obfsReceive.lookup key).getD {}
  let registers := lease.refs + 1 = 1 ∧ b.state.isSome
  let acquired := if registers then b.carrierAcquire key else b
  { acquired with
    obfsReceive := acquired.obfsReceive.insert key
      { refs := lease.refs + 1
        registered := if registers then true else lease.registered }
    receiveHandles := acquired.receiveHandles ++ [{ key := key }] }

def releaseReceiveKey (b : ArmorBind) (key : Key) : ArmorBind :=
  match b.obfsReceive.lookup key with
  | none => b
  | some lease =>
    if lease.refs - 1 > 0 then
      { b with
        obfsReceive := b.obfsReceive.insert key
          { lease with refs := lease.refs - 1 } }
    else
      let b := { b with obfsReceive := b.obfsReceive.erase key }
      if lease.registered then
        { b with state := b.state.map fun conn =>
            conn.map fun c => c.releaseReceiveKey key }
      else b

/-- Calling a returned release function of `AcquireReceiveKey`. -/
def callReceiveRelease (b : ArmorBind) (index : Nat) : ArmorBind :=
  match b.receiveHandles[index]? with
  | none => b
  | some handle =>
    if handle.released then b
    else
      releaseReceiveKey { b with
        receiveHandles := b.receiveHandles.modify index fun handle =>
          { handle with released := true } } handle.key

/-- `peerendpoint.Canonical`; `none` is the invalid endpoint. -/
def canonical : Option AddrPort → Except String AddrPort
  | none => .error "endpoint address is invalid"
  | some endpoint =>
    if endpoint.port = 0 then
      .error "endpoint port must be between 1 and 65535"
    else .ok (canonicalAddrPort endpoint)

def acquireEndpointKey (b : ArmorBind) (endpoint : Option AddrPort) (key : Key) :
    Option BindError × ArmorBind :=
  match canonical endpoint with
  | .error err => (some (.invalidEndpoint err), b)
  | .ok endpoint =>
    let lease := b.obfsDynamic.lookup endpoint
    if lease.any fun lease => lease.key ≠ key then
      (some (.otherKey endpoint), b)
    else
      (none, { b with
        obfsDynamic := b.obfsDynamic.insert endpoint
          { key, refs := (lease.elim 0 EndpointKeyLease.refs) + 1 }
        obfsResolved := b.obfsResolved.insert endpoint key
        state := b.state.map fun conn =>
          conn.map fun c => c.associateEndpoint endpoint key
        endpointHandles := b.endpointHandles ++ [{ endpoint := endpoint, key := key }] })

def releaseEndpointKey (b : ArmorBind) (endpoint : AddrPort) (key : Key) : ArmorBind :=
  match b.obfsDynamic.lookup endpoint with
  | none => b
  | some lease =>
    if lease.key ≠ key then b
    else if lease.refs - 1 > 0 then
      { b with
        obfsDynamic := b.obfsDynamic.insert endpoint
          { lease with refs := lease.refs - 1 } }
    else
      { b with
        obfsDynamic := b.obfsDynamic.erase endpoint
        obfsResolved := b.obfsResolved.erase endpoint
        state := b.state.map fun conn =>
          conn.map fun c => c.disassociateEndpoint endpoint key }

/-- Calling a returned release function of `AcquireEndpointKey`. -/
def callEndpointRelease (b : ArmorBind) (index : Nat) : ArmorBind :=
  match b.endpointHandles[index]? with
  | none => b
  | some handle =>
    if handle.released then b
    else
      releaseEndpointKey { b with
        endpointHandles := b.endpointHandles.modify index fun handle =>
          { handle with released := true } } handle.endpoint handle.key

/-- A datagram that the carrier reads. -/
def receive (digests : Digests) (b : ArmorBind) (packet : Bytes) (capacity : Nat) : ArmorBind :=
  { b with state := b.state.map fun conn =>
      conn.map fun c => (c.decode digests packet capacity).2 }

end ArmorBind

inductive KeyCall where
  | open_ (failure : Option String) (endpoints : List (AddrPort × Key)) (leases : List Key)
  | close
  | acquireReceiveKey (key : Key)
  | releaseReceiveKey (index : Nat)
  | acquireEndpointKey (endpoint : Option AddrPort) (key : Key)
  | releaseEndpointKey (index : Nat)
  | receive (packet : Bytes) (capacity : Nat)

def KeyCall.apply (digests : Digests) (b : ArmorBind) : KeyCall → ArmorBind
  | .open_ failure endpoints leases => (b.open_ failure endpoints leases).2
  | .close => b.close
  | .acquireReceiveKey key => b.acquireReceiveKey key
  | .releaseReceiveKey index => b.callReceiveRelease index
  | .acquireEndpointKey endpoint key => (b.acquireEndpointKey endpoint key).2
  | .releaseEndpointKey index => b.callEndpointRelease index
  | .receive packet capacity => b.receive digests packet capacity

/-- The bind after a sequence of calls, starting from `New`. -/
def bindAfter (digests : Digests) (cfg : Config) (calls : List KeyCall) : ArmorBind :=
  calls.foldl (KeyCall.apply digests) { cfg := cfg }

/-! ## What the connection accepts -/

namespace ArmorBind

/-- The obfuscating connection, while the bind is open in salamander mode. -/
def conn (b : ArmorBind) : Option SalamanderConn := b.state.join

/-- The unreleased leases of a key. -/
def leases (b : ArmorBind) (key : Key) : Nat :=
  b.receiveHandles.countP fun handle =>
    decide (handle.key = key ∧ handle.released = false)

def Leased (b : ArmorBind) (key : Key) : Prop := 0 < b.leases key

instance (b : ArmorBind) (key : Key) : Decidable (b.Leased key) :=
  inferInstanceAs (Decidable (0 < _))

/-- The keys every connection of the bind starts with. -/
def Initial (b : ArmorBind) (key : Key) : Prop :=
  key ∈ b.cfg.obfsKeys ∨ key ∈ b.openedKeys

instance (b : ArmorBind) (key : Key) : Decidable (b.Initial key) :=
  inferInstanceAs (Decidable (_ ∨ _))

/-- The references of the connection's keys, given which leases count. -/
structure Registers (b : ArmorBind) (counts : Key → Prop)
    [DecidablePred counts] : Prop where
  published : ∀ c, b.conn = some c → c.Published
  refs : ∀ c, b.conn = some c → ∀ key,
    c.refs key = (if b.Initial key then 1 else 0) + if counts key then 1 else 0

structure Sound (b : ArmorBind) : Prop where
  counted : ∀ key, (b.obfsReceive.lookup key).elim 0 ReceiveKeyLease.refs = b.leases key
  positive : ∀ key lease, b.obfsReceive.lookup key = some lease → 0 < lease.refs
  registered : ∀ key lease, b.obfsReceive.lookup key = some lease →
    lease.registered = b.state.isSome
  registers : b.Registers b.Leased

variable {b : ArmorBind}

theorem Sound.leased_iff (sound : b.Sound) (key : Key) :
    b.Leased key ↔ (b.obfsReceive.lookup key).isSome := by
  have counted := sound.counted key
  rw [Leased, ← counted]
  cases found : b.obfsReceive.lookup key with
  | none => simp
  | some lease => simpa using sound.positive key lease found

/-- The published keys are the initial ones and the leased ones. -/
theorem Sound.mem_keySet (sound : b.Sound) {c : SalamanderConn} (opened : b.conn = some c)
    (key : Key) : key ∈ c.keySet ↔ b.Initial key ∨ b.Leased key := by
  rw [(sound.registers.published c opened).mem_keySet, sound.registers.refs c opened]
  by_cases leased : b.Leased key
  · simp [leased]
  · by_cases initial : b.Initial key
    · simp [initial, leased]
    · simp [initial, leased]

theorem conn_map (state : Option (Option SalamanderConn))
    (change : SalamanderConn → SalamanderConn) :
    (state.map fun conn => conn.map change).join = state.join.map change := by
  match state with
  | none => rfl
  | some none => rfl
  | some (some c) => rfl

variable {after : ArmorBind} {key : Key} {keys : List Key}

theorem leased_congr {b : ArmorBind} (leases : after.leases key = b.leases key) :
    b.Leased key ↔ after.Leased key := by
  rw [Leased, Leased, leases]

/-- A change of the connection has to add and to drop the references of the
leases that start and that stop to count. -/
theorem Registers.change {change : SalamanderConn → SalamanderConn} {counted counts : Key → Prop}
    [DecidablePred counted] [DecidablePred counts] (registers : b.Registers counted)
    (cfg : after.cfg = b.cfg) (openedKeys : after.openedKeys = b.openedKeys)
    (state : after.state = b.state.map fun conn => conn.map change)
    (published : ∀ c : SalamanderConn, c.Published → (change c).Published)
    (refs : ∀ c, b.conn = some c → ∀ key, (change c).refs key + (if counted key then 1 else 0) =
      c.refs key + if counts key then 1 else 0) :
    after.Registers counts := by
  have conn : ∀ c, after.conn = some c → ∃ old, b.conn = some old ∧ change old = c := by
    intro c opened
    rw [ArmorBind.conn, state, conn_map] at opened
    exact Option.map_eq_some_iff.mp opened
  constructor
  · intro c opened
    obtain ⟨old, oldOpened, rfl⟩ := conn c opened
    exact published old (registers.published old oldOpened)
  · intro c opened key
    obtain ⟨old, oldOpened, rfl⟩ := conn c opened
    have changed := refs old oldOpened key
    rw [registers.refs old oldOpened key] at changed
    have same : after.Initial key ↔ b.Initial key := by rw [Initial, Initial, cfg, openedKeys]
    rw [if_congr same rfl rfl]
    omega

section

variable (sound : b.Sound)

include sound

/-- Only the connection changes, and its keys stay. -/
theorem Sound.congr {change : SalamanderConn → SalamanderConn}
    (cfg : after.cfg = b.cfg) (openedKeys : after.openedKeys = b.openedKeys)
    (handles : after.receiveHandles = b.receiveHandles)
    (receive : after.obfsReceive = b.obfsReceive)
    (state : after.state = b.state.map fun conn => conn.map change)
    (keeps : ∀ c : SalamanderConn, c.Published → (change c).Published ∧ (change c).refs = c.refs) :
    after.Sound := by
  have leases : after.leases = b.leases := by
    funext key
    rw [ArmorBind.leases, handles]
    rfl
  refine ⟨?_, ?_, ?_, ?_⟩
  · rw [receive, leases]
    exact sound.counted
  · rw [receive]
    exact sound.positive
  · rw [receive, state, Option.isSome_map]
    exact sound.registered
  · refine sound.registers.change cfg openedKeys state (fun c published => (keeps c published).1) ?_
    intro c opened key
    rw [(keeps c (sound.registers.published c opened)).2,
      if_congr (leased_congr (congrFun leases key)) rfl rfl]

theorem Sound.receive (digests : Digests) (packet : Bytes)
    (capacity : Nat) : (b.receive digests packet capacity).Sound := by
  refine sound.congr rfl rfl rfl rfl rfl ?_
  intro c published
  obtain ⟨⟨after, _, refs⟩, _⟩ := published.decode digests packet capacity
  exact ⟨after, refs⟩

theorem Sound.acquireEndpointKey (endpoint : Option AddrPort) (key : Key) :
    (b.acquireEndpointKey endpoint key).2.Sound := by
  unfold ArmorBind.acquireEndpointKey
  split
  · exact sound
  · dsimp only
    split
    · exact sound
    · refine sound.congr rfl rfl rfl rfl rfl ?_
      intro c published
      exact ⟨⟨published.ordered, published.nodup, published.snapshot, published.cached⟩, rfl⟩

theorem Sound.releaseEndpointKey (endpoint : AddrPort)
    (key : Key) : (b.releaseEndpointKey endpoint key).Sound := by
  unfold ArmorBind.releaseEndpointKey
  split
  · exact sound
  · split
    · exact sound
    · split
      · exact ⟨sound.counted, sound.positive, sound.registered,
          ⟨sound.registers.published, sound.registers.refs⟩⟩
      · refine sound.congr rfl rfl rfl rfl rfl ?_
        intro c published
        unfold disassociateEndpoint
        split
        · exact ⟨⟨published.ordered, published.nodup, published.snapshot, published.cached⟩, rfl⟩
        · exact ⟨published, rfl⟩

theorem Sound.callEndpointRelease (index : Nat) : (b.callEndpointRelease index).Sound := by
  unfold ArmorBind.callEndpointRelease
  split
  · exact sound
  · split
    · exact sound
    · apply Sound.releaseEndpointKey
      exact ⟨sound.counted, sound.positive, sound.registered,
        ⟨sound.registers.published, sound.registers.refs⟩⟩

theorem Sound.at {lease : Option ReceiveKeyLease} (change : SalamanderConn → SalamanderConn)
    (cfg : after.cfg = b.cfg) (openedKeys : after.openedKeys = b.openedKeys)
    (here : after.obfsReceive.lookup key = lease)
    (others : ∀ other, other ≠ key → after.obfsReceive.lookup other = b.obfsReceive.lookup other)
    (unleased : ∀ other, other ≠ key → after.leases other = b.leases other)
    (counted : lease.elim 0 ReceiveKeyLease.refs = after.leases key)
    (holds : ∀ held, lease = some held → 0 < held.refs ∧ held.registered = b.state.isSome)
    (state : after.state = b.state.map fun conn => conn.map change)
    (published : ∀ c : SalamanderConn, c.Published → (change c).Published)
    (stay : ∀ c : SalamanderConn, ∀ other, other ≠ key → (change c).refs other = c.refs other)
    (refs : ∀ c, b.conn = some c →
      (change c).refs key + (if (b.obfsReceive.lookup key).isSome then 1 else 0) =
        c.refs key + if lease.isSome then 1 else 0) : after.Sound := by
  have counts : ∀ other, (after.obfsReceive.lookup other).elim 0 ReceiveKeyLease.refs =
      after.leases other := by
    intro other
    by_cases same : other = key
    · rw [same, here]
      exact counted
    · rw [others other same, unleased other same]
      exact sound.counted other
  have leases : ∀ other held, after.obfsReceive.lookup other = some held →
      0 < held.refs ∧ held.registered = b.state.isSome := by
    intro other held found
    by_cases same : other = key
    · exact holds held (here.symm.trans (same ▸ found))
    · rw [others other same] at found
      exact ⟨sound.positive other held found, sound.registered other held found⟩
  refine ⟨counts, fun other held found => (leases other held found).1, ?_,
    sound.registers.change cfg openedKeys state published ?_⟩
  · intro other held found
    rw [state, Option.isSome_map]
    exact (leases other held found).2
  · intro c opened other
    by_cases same : other = key
    · have leased : after.Leased key ↔ lease.isSome := by
        rw [Leased, ← counted]
        cases lease with
        | none => simp
        | some held => simpa using (holds held rfl).1
      rw [same, if_congr (sound.leased_iff key) rfl rfl, if_congr leased rfl rfl]
      exact refs c opened
    · rw [stay c other same, if_congr (leased_congr (unleased other same)) rfl rfl]

end

theorem leases_granted (handles : after.receiveHandles = b.receiveHandles ++ [{ key := key }])
    (other : Key) : after.leases other = b.leases other + if other = key then 1 else 0 := by
  rw [ArmorBind.leases, handles]
  by_cases same : other = key
  · simp [ArmorBind.leases, same]
  · simp [ArmorBind.leases, same, Ne.symm same]

theorem acquireReceiveKey_fresh (fresh : b.obfsReceive.lookup key = none) :
    b.acquireReceiveKey key = { b with
      state := b.state.map fun conn => conn.map fun c => c.acquireReceiveKey key
      obfsReceive := b.obfsReceive.insert key
        { refs := 1, registered := b.state.isSome }
      receiveHandles := b.receiveHandles ++ [{ key := key }] } := by
  unfold ArmorBind.acquireReceiveKey ArmorBind.carrierAcquire
  rw [fresh]
  cases opened : b.state with
  | none => simp [opened]
  | some conn => simp

theorem acquireReceiveKey_again {lease : ReceiveKeyLease}
    (found : b.obfsReceive.lookup key = some lease) (counted : 0 < lease.refs) :
    b.acquireReceiveKey key = { b with
      obfsReceive := b.obfsReceive.insert key
        { lease with refs := lease.refs + 1 }
      receiveHandles := b.receiveHandles ++ [{ key := key }] } := by
  have second : ¬(lease.refs + 1 = 1 ∧ b.state.isSome) := by omega
  unfold ArmorBind.acquireReceiveKey
  rw [found]
  dsimp only [Option.getD_some]
  rw [if_neg second, if_neg second]

theorem Sound.acquireReceiveKey (sound : b.Sound) (key : Key) :
    (b.acquireReceiveKey key).Sound := by
  have counted := sound.counted key
  have others : ∀ other, other ≠ key → b.leases other + (if other = key then 1 else 0) =
      b.leases other := fun other different => by rw [if_neg different, Nat.add_zero]
  cases found : b.obfsReceive.lookup key with
  | none =>
    rw [found] at counted
    rw [acquireReceiveKey_fresh found]
    refine sound.at (fun c => c.acquireReceiveKey key) rfl rfl (lookup_insert _)
      (fun other => lookup_insert_ne)
      (fun other different => (leases_granted rfl other).trans (others other different)) ?_ ?_ rfl
      (fun c published => published.acquire key) ?_ ?_
    · rw [leases_granted rfl, ← counted, if_pos rfl]
      rfl
    · rintro _ ⟨⟩
      exact ⟨Nat.one_pos, rfl⟩
    · intro c other different
      rw [acquireReceiveKey_refs, if_neg different, Nat.add_zero]
    · intro c opened
      simp [acquireReceiveKey_refs, found]
  | some lease =>
    rw [found] at counted
    rw [acquireReceiveKey_again found (sound.positive key lease found)]
    refine sound.at id rfl rfl (lookup_insert _) (fun other => lookup_insert_ne)
      (fun other different => (leases_granted rfl other).trans (others other different)) ?_ ?_
      (by simp) (fun c published => published) (fun _ _ _ => rfl) ?_
    · rw [leases_granted rfl, ← counted, if_pos rfl]
      rfl
    · rintro _ ⟨⟩
      exact ⟨Nat.succ_pos _, sound.registered key lease found⟩
    · intro c opened
      simp [found]

/-- The bind with one release function used up. -/
def spend (b : ArmorBind) (index : Nat) : ArmorBind :=
  { b with
    receiveHandles := b.receiveHandles.modify index fun handle =>
      { handle with released := true } }

variable {handle : ReceiveHandle}

theorem spend_leases {index : Nat} (found : b.receiveHandles[index]? = some handle)
    (held : handle.released = false) (other : Key) :
    (b.spend index).leases other + (if other = handle.key then 1 else 0) = b.leases other := by
  obtain ⟨left, item, right, split, sized, modified⟩ :=
    List.exists_of_modify (fun handle : ReceiveHandle =>
      { handle with released := true }) (List.getElem?_eq_some_iff.mp found).1
  have same : item = handle := by
    rw [split, ← sized] at found
    simpa using found
  subst same
  rw [ArmorBind.leases, ArmorBind.leases, spend, modified, split,
    List.countP_append, List.countP_append]
  by_cases isKey : other = item.key
  · simp [isKey, held]
    omega
  · simp [isKey, Ne.symm isKey]

theorem Sound.releaseReceiveKey (sound : b.Sound) {index : Nat} {handle : ReceiveHandle}
    (found : b.receiveHandles[index]? = some handle) (held : handle.released = false) :
    ((b.spend index).releaseReceiveKey handle.key).Sound := by
  obtain ⟨key, released⟩ := handle
  have leases := spend_leases found held
  have others : ∀ other, other ≠ key → (b.spend index).leases other = b.leases other := by
    intro other different
    have counted := leases other
    rwa [if_neg different] at counted
  have one := leases key
  rw [if_pos rfl, ← sound.counted key] at one
  have same : (b.spend index).obfsReceive = b.obfsReceive := rfl
  unfold ArmorBind.releaseReceiveKey
  rw [same]
  cases lookup : b.obfsReceive.lookup key with
  | none =>
    rw [lookup] at one
    cases one
  | some lease =>
    rw [lookup, Option.elim_some] at one
    dsimp only
    split
    · next several =>
      refine sound.at id rfl rfl (lookup_insert _) (fun other => lookup_insert_ne)
        others ?_ ?_ (by simp [spend]) (fun c published => published) (fun _ _ _ => rfl) ?_
      · exact (Nat.eq_sub_of_add_eq one).symm
      · rintro _ ⟨⟩
        exact ⟨several, sound.registered key lease lookup⟩
      · intro c opened
        simp [lookup]
    next last =>
    have erased : ∀ state, state = b.state.map (fun conn => conn.map (·.releaseReceiveKey key)) →
        Sound { b.spend index with obfsReceive := b.obfsReceive.erase key, state } := by
      rintro state rfl
      refine sound.at (·.releaseReceiveKey key) rfl rfl (lookup_erase _ _)
        (fun other => lookup_erase_ne) others ?_ nofun rfl
        (fun c published => published.release key) ?_ ?_
      · change 0 = (b.spend index).leases key
        omega
      · intro c other different
        rw [releaseReceiveKey_refs, if_neg different, Nat.sub_zero]
      · intro c opened
        have refs := sound.registers.refs c opened key
        rw [if_pos ((sound.leased_iff key).mpr (by rw [lookup]; rfl))] at refs
        rw [releaseReceiveKey_refs, lookup, refs]
        simp
    split
    · exact erased _ rfl
    next unregistered =>
    rw [sound.registered key lease lookup] at unregistered
    have closed : b.state = none := by simpa using unregistered
    exact erased b.state (by rw [closed]; rfl)

theorem Sound.callReceiveRelease (sound : b.Sound) (index : Nat) :
    (b.callReceiveRelease index).Sound := by
  unfold ArmorBind.callReceiveRelease
  split
  · exact sound
  next handle found =>
  split
  · exact sound
  · next unreleased =>
    exact sound.releaseReceiveKey found (by simpa using unreleased)

/-- What the loops of `Open` and `Close` do to the receive leases. -/
def markAll (registered : Bool) (keys : List Key) (receive : AList fun _ : Key => ReceiveKeyLease) :
    AList fun _ : Key => ReceiveKeyLease :=
  keys.foldl (fun receive key => receive.insert key
    { (receive.lookup key).getD {} with registered := registered }) receive

theorem markAll_lookup (registered : Bool) (keys : List Key)
    (receive : AList fun _ : Key => ReceiveKeyLease)
    (known : ∀ key ∈ keys, (receive.lookup key).isSome) (other : Key) :
    (markAll registered keys receive).lookup other = if other ∈ keys then
        (receive.lookup other).map fun lease =>
          { lease with registered := registered }
      else receive.lookup other := by
  induction keys generalizing receive with
  | nil => simp [markAll]
  | cons key rest ih =>
    obtain ⟨lease, found⟩ := Option.isSome_iff_exists.mp (known key List.mem_cons_self)
    have step := ih (receive.insert key { lease with registered := registered }) (by
        intro later member
        by_cases same : later = key
        · rw [same, lookup_insert]
          rfl
        · rw [lookup_insert_ne same]
          exact known later (List.mem_cons_of_mem _ member))
    rw [markAll, List.foldl_cons, found]
    refine Eq.trans step ?_
    by_cases same : other = key
    · subst same
      simp [lookup_insert, found]
    · simp [lookup_insert_ne same, same]

theorem closeLoop_eq (keys : List Key) (b : ArmorBind) : closeLoop keys b =
      { b with obfsReceive := markAll false keys b.obfsReceive } := by
  induction keys generalizing b with
  | nil => rfl
  | cons key rest ih => exact ih _

/-- `AcquireReceiveKey` of the connection for one key after the other. -/
def acquireAll (keys : List Key) (c : SalamanderConn) : SalamanderConn :=
  keys.foldl SalamanderConn.acquireReceiveKey c

theorem acquireAll_published (keys : List Key) {c : SalamanderConn}
    (published : c.Published) : (acquireAll keys c).Published := by
  induction keys generalizing c with
  | nil => exact published
  | cons key rest ih => exact ih (published.acquire key)

theorem acquireAll_refs (nodup : keys.Nodup) (c : SalamanderConn) (other : Key) :
    (acquireAll keys c).refs other = c.refs other + if other ∈ keys then 1 else 0 := by
  induction keys generalizing c with
  | nil => rfl
  | cons key rest ih =>
    obtain ⟨fresh, restNodup⟩ := List.nodup_cons.mp nodup
    refine (ih restNodup _).trans ?_
    by_cases same : other = key
    · subst same
      simp [fresh]
    · simp [same]

theorem registerLoop_eq (keys : List Key) (b : ArmorBind) : registerLoop keys b = { b with
      state := b.state.map fun conn => conn.map (acquireAll keys)
      obfsReceive := markAll true keys b.obfsReceive } := by
  induction keys generalizing b with
  | nil =>
    cases b with
    | mk cfg state =>
      match state with
      | none => rfl
      | some none => rfl
      | some (some c) => rfl
  | cons key rest ih =>
    refine (ih _).trans ?_
    cases b with
    | mk cfg state =>
      match state with
      | none => rfl
      | some none => rfl
      | some (some c) => rfl

theorem markKeys_lookup (registered : Bool) {receive : AList fun _ : Key => ReceiveKeyLease}
    (all : keys.Perm receive.keys) (key : Key) :
    (markAll registered keys receive).lookup key = (receive.lookup key).map fun lease =>
        { lease with registered := registered } := by
  have known : ∀ key, key ∈ keys ↔ (receive.lookup key).isSome := by
    intro key
    rw [all.mem_iff, ← mem_keys, lookup_isSome]
  rw [markAll_lookup registered keys receive fun key => (known key).mp]
  split
  · rfl
  next unknown =>
  rw [known] at unknown
  have missing : receive.lookup key = none := by simpa using unknown
  rw [missing]
  rfl

section

variable (sound : b.Sound)

include sound

/-- All the leases are marked as the carrier comes up or goes away. -/
theorem Sound.mark (all : keys.Perm b.obfsReceive.keys)
    (handles : after.receiveHandles = b.receiveHandles)
    (receive : after.obfsReceive = markAll after.state.isSome keys b.obfsReceive)
    (registers : after.Registers b.Leased) : after.Sound := by
  have leases : ∀ key, after.leases key = b.leases key := by
    intro key
    rw [ArmorBind.leases, handles]
    rfl
  have lookup : ∀ key, after.obfsReceive.lookup key = (b.obfsReceive.lookup key).map fun lease =>
        { lease with registered := after.state.isSome } := by
    intro key
    rw [receive]
    exact markKeys_lookup _ all key
  refine ⟨?_, ?_, ?_, registers.published, ?_⟩
  · intro key
    rw [lookup, leases, ← sound.counted key]
    cases b.obfsReceive.lookup key with
    | none | some => rfl
  · intro key lease found
    rw [lookup] at found
    obtain ⟨old, oldFound, rfl⟩ := Option.map_eq_some_iff.mp found
    exact sound.positive key old oldFound
  · intro key lease found
    rw [lookup] at found
    obtain ⟨old, oldFound, rfl⟩ := Option.map_eq_some_iff.mp found
    rfl
  · intro c opened key
    rw [registers.refs c opened key, if_congr (leased_congr (leases key)) rfl rfl]

theorem Sound.close : b.close.Sound := by
  refine sound.mark (.refl _) ?_ ?_ ⟨?_, ?_⟩
  · rw [ArmorBind.close, closeLoop_eq]
  · rw [ArmorBind.close, closeLoop_eq]
    rfl
  · rw [ArmorBind.close, closeLoop_eq]
    nofun
  · rw [ArmorBind.close, closeLoop_eq]
    nofun

theorem Sound.register (leases : List Key) {carrier : Option SalamanderConn} {openedKeys : List Key}
    (fresh : ∀ c, carrier = some c → c.Published ∧ ∀ key, c.refs key =
      if key ∈ b.cfg.obfsKeys ∨ key ∈ openedKeys then 1 else 0) :
    (registerLoop (inOrder leases b.obfsReceive.keys)
      { b with state := some carrier, openedKeys := openedKeys }).Sound := by
  have all := inOrder_perm leases b.obfsReceive.keys
  have nodup := all.nodup_iff.mpr b.obfsReceive.keys_nodup
  rw [registerLoop_eq]
  refine sound.mark all rfl rfl ⟨?_, ?_⟩
  · intro c opened
    obtain ⟨first, wrapped, rfl⟩ := Option.map_eq_some_iff.mp opened
    exact acquireAll_published _ (fresh first wrapped).1
  · intro c opened key
    obtain ⟨first, wrapped, rfl⟩ := Option.map_eq_some_iff.mp opened
    rw [acquireAll_refs nodup, (fresh first wrapped).2 key]
    have leased : key ∈ inOrder leases b.obfsReceive.keys ↔ b.Leased key := by
      rw [all.mem_iff, ← mem_keys, ← lookup_isSome, sound.leased_iff]
    rw [if_congr leased rfl rfl]
    rfl

theorem Sound.open_ (failure : Option String) (endpoints : List (AddrPort × Key))
    (leases : List Key) : (b.open_ failure endpoints leases).2.Sound := by
  unfold ArmorBind.open_
  split
  · exact sound
  · split
    · exact sound
    · exact sound
    · exact sound.register leases nofun
    · apply sound.register leases
      rintro c ⟨⟩
      refine ⟨wrap_published _, ?_⟩
      intro key
      rw [wrap_refs]
      congr 1
      simp [peerKeys]

theorem Sound.apply (digests : Digests) (call : KeyCall) : (call.apply digests b).Sound := by
  cases call with
  | open_ failure endpoints leases => exact sound.open_ failure endpoints leases
  | close => exact sound.close
  | acquireReceiveKey key => exact sound.acquireReceiveKey key
  | releaseReceiveKey index => exact sound.callReceiveRelease index
  | acquireEndpointKey endpoint key => exact sound.acquireEndpointKey endpoint key
  | releaseEndpointKey index => exact sound.callEndpointRelease index
  | receive packet capacity => exact sound.receive digests packet capacity

end

theorem sound_bindAfter (digests : Digests) (cfg : Config)
    (calls : List KeyCall) : (bindAfter digests cfg calls).Sound := by
  induction calls using List.reverseRecOn with
  | nil =>
    refine ⟨fun _ => rfl, nofun, nofun, nofun, nofun⟩
  | append_singleton calls call ih =>
    rw [bindAfter, List.foldl_append]
    exact ih.apply digests call

theorem apply_cfg (digests : Digests) (b : ArmorBind) (call : KeyCall) :
    (call.apply digests b).cfg = b.cfg := by
  cases call with
  | open_ failure endpoints leases =>
    simp only [KeyCall.apply, ArmorBind.open_, registerLoop_eq]
    split
    · rfl
    · split <;> rfl
  | close => rw [KeyCall.apply, ArmorBind.close, closeLoop_eq]
  | acquireReceiveKey key =>
    simp only [KeyCall.apply, ArmorBind.acquireReceiveKey, carrierAcquire]
    split <;> rfl
  | releaseReceiveKey index =>
    simp only [KeyCall.apply, ArmorBind.callReceiveRelease, ArmorBind.releaseReceiveKey]
    repeat' split
    all_goals rfl
  | acquireEndpointKey endpoint key =>
    simp only [KeyCall.apply, ArmorBind.acquireEndpointKey]
    repeat' split
    all_goals rfl
  | releaseEndpointKey index =>
    simp only [KeyCall.apply, ArmorBind.callEndpointRelease, ArmorBind.releaseEndpointKey]
    repeat' split
    all_goals rfl
  | receive packet capacity => rfl

theorem bindAfter_cfg (digests : Digests) (cfg : Config)
    (calls : List KeyCall) : (bindAfter digests cfg calls).cfg = cfg := by
  induction calls using List.reverseRecOn with
  | nil => rfl
  | append_singleton calls call ih =>
    rw [bindAfter, List.foldl_append]
    exact (apply_cfg digests _ call).trans ih

end ArmorBind

/-! ## Revoked receive keys -/

/-- An open bind accepts exactly its configured and its leased keys if and only
if every endpoint key that `Open` found is one of them.  A key that is neither
then decodes no packet, and what was encoded with it does not decode unless an
accepted key has the same hint for its salt. -/
theorem revoked_keys_rejected (digests : Digests) (cfg : Config)
    (calls : List KeyCall) (c : SalamanderConn)
    (opened : (bindAfter digests cfg calls).conn = some c) :
    ((∀ key, key ∈ c.keySet ↔ key ∈ cfg.obfsKeys ∨ (bindAfter digests cfg calls).Leased key) ↔
      ∀ key ∈ (bindAfter digests cfg calls).openedKeys,
        key ∈ cfg.obfsKeys ∨ (bindAfter digests cfg calls).Leased key) ∧
    ((∀ key ∈ (bindAfter digests cfg calls).openedKeys,
        key ∈ cfg.obfsKeys ∨ (bindAfter digests cfg calls).Leased key) →
      ∀ key, key ∉ cfg.obfsKeys → ¬(bindAfter digests cfg calls).Leased key →
        (∀ packet capacity plain, (c.decode digests packet capacity).1 ≠ some (plain, key)) ∧
        ∀ payload space salt packet capacity, salt.length = salamanderSaltSize →
          encode digests payload space key salt = .ok packet →
          (∀ other ∈ c.keySet, digests.hint other salt ≠ digests.hint key salt) →
          (c.decode digests packet capacity).1 = none) := by
  have sound := ArmorBind.sound_bindAfter digests cfg calls
  have configured := ArmorBind.bindAfter_cfg digests cfg calls
  generalize bindAfter digests cfg calls = b at opened sound configured ⊢
  have published := sound.registers.published c opened
  have accepted : ∀ key, key ∈ c.keySet ↔
      (key ∈ cfg.obfsKeys ∨ key ∈ b.openedKeys) ∨ b.Leased key := by
    intro key
    rw [sound.mem_keySet opened, ArmorBind.Initial, configured]
  have exact_iff : (∀ key, key ∈ c.keySet ↔ key ∈ cfg.obfsKeys ∨ b.Leased key) ↔
      ∀ key ∈ b.openedKeys, key ∈ cfg.obfsKeys ∨ b.Leased key := by
    constructor
    · intro equal key endpoint
      exact (equal key).mp ((accepted key).mpr (.inl (.inr endpoint)))
    · intro covered key
      rw [accepted]
      constructor
      · rintro ((static | endpoint) | leased)
        · exact .inl static
        · exact covered key endpoint
        · exact .inr leased
      · rintro (static | leased)
        · exact .inl (.inl static)
        · exact .inr leased
  refine ⟨exact_iff, ?_⟩
  intro covered key foreign unleased
  have rejected : key ∉ c.keySet := by
    rw [exact_iff.mpr covered key]
    exact not_or.mpr ⟨foreign, unleased⟩
  constructor
  · intro packet capacity plain decoded
    exact rejected ((published.decode digests packet capacity).2 plain key decoded).1
  · intro payload space salt packet capacity sized encodes distinct
    obtain ⟨saltOf, hintOf⟩ := encode_hint sized encodes
    cases decoded : (c.decode digests packet capacity).1 with
    | none => rfl
    | some result =>
      obtain ⟨member, hinted⟩ := (published.decode digests packet capacity).2
        result.1 result.2 decoded
      rw [saltOf, hintOf] at hinted
      exact absurd hinted.symm (distinct result.2 member)

def sampleDigests : Digests where
  hint key _ := key.bytes.take 8
  stream key _ := key.bytes
  hint_length key _ := key.take_length
  stream_length key _ := key.size

def sampleKey (byte : UInt8) : Key := ⟨List.replicate 32 byte, by simp⟩

def sampleEndpoint : AddrPort := { addr := .v4 0xc0000201#32, port := 51820 }

/-- A key is leased over a close and a second open, and then given back. -/
def leasedRun : List KeyCall :=
  [.acquireReceiveKey (sampleKey 2), .acquireEndpointKey (some sampleEndpoint) (sampleKey 1),
    .open_ none [] [], .close, .open_ none [] [], .releaseReceiveKey 0]

theorem revoked_keys_rejected_reopened :
    ∃ c, (bindAfter sampleDigests { obfsMode := .salamander, obfsKeys := [sampleKey 1] }
        leasedRun).conn = some c ∧
      sampleKey 2 ∉ c.keySet ∧ sampleKey 1 ∈ c.keySet ∧
      ∃ packet, encode sampleDigests [7] 64 (sampleKey 2) (List.replicate 8 0) = .ok packet ∧
        (c.decode sampleDigests packet 64).1 = none := by
  let cfg : Config := { obfsMode := .salamander, obfsKeys := [sampleKey 1] }
  obtain ⟨c, opened⟩ : ∃ c, (bindAfter sampleDigests cfg leasedRun).conn = some c :=
    Option.isSome_iff_exists.mp (by decide +kernel)
  obtain ⟨equal, rejects⟩ := revoked_keys_rejected sampleDigests cfg leasedRun c opened
  have covered : ∀ key ∈ (bindAfter sampleDigests cfg leasedRun).openedKeys,
      key ∈ cfg.obfsKeys ∨ (bindAfter sampleDigests cfg leasedRun).Leased key := by
    decide +kernel
  have accepted := equal.mpr covered
  have unleased : ∀ key, ¬(bindAfter sampleDigests cfg leasedRun).Leased key := by
    have idle : ∀ handle ∈ (bindAfter sampleDigests cfg leasedRun).receiveHandles,
        handle.released = true := by decide +kernel
    intro key leased
    obtain ⟨handle, member, held⟩ := List.countP_pos_iff.mp leased
    simp [idle handle member] at held
  refine ⟨c, opened, ?_, ?_, _, rfl, ?_⟩
  · rw [accepted]
    exact not_or.mpr ⟨by decide +kernel, unleased _⟩
  · exact (accepted _).mpr (.inl (by decide +kernel))
  · refine (rejects covered (sampleKey 2) (by decide +kernel) (unleased _)).2 [7] 64
      (List.replicate 8 0) _ 64 rfl rfl ?_
    intro other member
    rcases (accepted other).mp member with static | leased
    · rw [List.mem_singleton.mp static]
      decide +kernel
    · exact absurd leased (unleased other)

/-- Whatever the bind has been through, what is encoded with a configured or a
leased key decodes, unless another accepted key has the same hint. -/
theorem accepted_keys_decode (digests : Digests) (cfg : Config) (calls : List KeyCall)
    (key : Key) (payload salt : Bytes) (space capacity : Nat) {c : SalamanderConn} {packet : Bytes}
    (opened : (bindAfter digests cfg calls).conn = some c)
    (accepted : key ∈ cfg.obfsKeys ∨ (bindAfter digests cfg calls).Leased key)
    (sized : salt.length = salamanderSaltSize)
    (encodes : encode digests payload space key salt = .ok packet)
    (room : payload.length ≤ capacity)
    (apart : ∀ other ∈ c.keySet, digests.hint other salt = digests.hint key salt → other = key) :
    (c.decode digests packet capacity).1 = some (payload, key) := by
  have sound := ArmorBind.sound_bindAfter digests cfg calls
  have published := sound.registers.published c opened
  obtain ⟨nonempty, rfl⟩ := encode_ok encodes
  have member : key ∈ c.keySet := by
    rw [sound.mem_keySet opened, ArmorBind.Initial, ArmorBind.bindAfter_cfg]
    exact accepted.imp_left .inl
  refine decode_record published ((published.mem_keySet key).mp member) ?_ sized nonempty room
  intro other known
  exact apart other (known.elim (published.mem_keySet other).mpr (published.cached other))

theorem accepted_keys_decode_reopened :
    ∃ c, (bindAfter sampleDigests { obfsMode := .salamander, obfsKeys := [sampleKey 1] }
        leasedRun).conn = some c ∧
      ∃ packet, encode sampleDigests [7] 64 (sampleKey 1) (List.replicate 8 0) = .ok packet ∧
        (c.decode sampleDigests packet 64).1 = some ([7], sampleKey 1) := by
  refine ⟨_, rfl, _, rfl, accepted_keys_decode _ { obfsMode := .salamander, obfsKeys := _ }
    leasedRun _ _ (List.replicate 8 0) 64 _ rfl (.inl List.mem_cons_self) rfl rfl ?_ ?_⟩ <;>
    decide +kernel

/-- The key of an endpoint is accepted from `Open` on, and stays accepted when
its receive lease is given back. -/
def endpointRun : List KeyCall :=
  [.acquireEndpointKey (some sampleEndpoint) (sampleKey 2), .open_ none [] [],
    .acquireReceiveKey (sampleKey 2), .releaseReceiveKey 0]

theorem revoked_endpoint_key_decodes :
    ∃ c, (bindAfter sampleDigests { obfsMode := .salamander, obfsKeys := [] }
        endpointRun).conn = some c ∧
      ¬(bindAfter sampleDigests { obfsMode := .salamander, obfsKeys := [] }
        endpointRun).Leased (sampleKey 2) ∧
      sampleKey 2 ∈ c.keySet ∧
      ∃ packet, encode sampleDigests [7] 64 (sampleKey 2) (List.replicate 8 0) = .ok packet ∧
        (c.decode sampleDigests packet 64).1 = some ([7], sampleKey 2) := by
  refine ⟨_, rfl, ?_, ?_, _, rfl, ?_⟩ <;> decide +kernel

end WgQuic.Bind
