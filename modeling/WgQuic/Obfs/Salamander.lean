import Mathlib.Data.List.AList
import WgQuic.Fec.Wire
import WgQuic.Net.Address

/-!
# Salamander obfuscation

The keys a connection accepts packets with, and the packets themselves.  The
keyed hash is a parameter: a hint of eight bytes and a stream of thirty-two for
every key and salt.
-/

namespace WgQuic.Obfs

open Fec (Bytes)
open Net

def salamanderSaltSize : Nat := 8
def salamanderHintSize : Nat := 8
def salamanderHeaderSize : Nat := salamanderSaltSize + salamanderHintSize
def maxUDPPayload : Nat := 65507

structure Key where
  bytes : Bytes
  size : bytes.length = 32
deriving DecidableEq

theorem Key.take_length (key : Key) : (key.bytes.take 8).length = salamanderHintSize := by
  rw [List.length_take, key.size]
  rfl

structure AddrPort where
  addr : Addr
  port : Nat
deriving DecidableEq, Repr

def canonicalAddrPort (endpoint : AddrPort) : AddrPort :=
  { endpoint with addr := endpoint.addr.unmap }

structure PeerKey where
  key : Key
  endpoint : Option AddrPort := none

/-- `deriveHint` and `deriveStream` of a `digestPair`. -/
structure Digests where
  hint : Key → Bytes → Bytes
  stream : Key → Bytes → Bytes
  hint_length : ∀ key salt, (hint key salt).length = salamanderHintSize
  stream_length : ∀ key salt, (stream key salt).length = 32

structure SalamanderConn where
  outbound : AList (fun _ : AddrPort => Key) := ∅
  keyRefs : AList (fun _ : Key => Nat) := ∅
  keyOrder : List Key := []
  /-- The published snapshot. -/
  keySet : List Key := []
  lastKey : Option Key := none

namespace SalamanderConn

/-- Reading a missing key of the map gives zero. -/
def refs (c : SalamanderConn) (key : Key) : Nat :=
  (c.keyRefs.lookup key).getD 0

def addReceiveKeyLocked (c : SalamanderConn) (key : Key) : SalamanderConn :=
  { c with
    keyOrder := if c.refs key = 0 then c.keyOrder ++ [key] else c.keyOrder
    keyRefs := c.keyRefs.insert key (c.refs key + 1) }

def publishReceiveKeysLocked (c : SalamanderConn) : SalamanderConn :=
  { c with keySet := c.keyOrder.filter fun key => c.refs key ≠ 0 }

def acquireReceiveKey (c : SalamanderConn) (key : Key) : SalamanderConn :=
  (c.addReceiveKeyLocked key).publishReceiveKeysLocked

/-- The reference of a key is given back; the cached key does not outlive
it. -/
def releaseReceiveKey (c : SalamanderConn) (key : Key) : SalamanderConn :=
  let c :=
    if c.refs key ≤ 1 then
      { c with
        keyRefs := c.keyRefs.erase key
        keyOrder := c.keyOrder.erase key }
    else { c with keyRefs := c.keyRefs.insert key (c.refs key - 1) }
  publishReceiveKeysLocked
    { c with lastKey := if c.lastKey = some key then none else c.lastKey }

/-- The loop of `WrapKeyedSalamander` over the peers. -/
def wrapLoop : List Key → List PeerKey → SalamanderConn → SalamanderConn
  | _, [], c => c
  | seen, peer :: rest, c =>
    let added := if peer.key ∈ seen then c else c.addReceiveKeyLocked peer.key
    let seen := if peer.key ∈ seen then seen else peer.key :: seen
    match peer.endpoint with
    | none => wrapLoop seen rest added
    | some endpoint =>
      wrapLoop seen rest { added with
        outbound := added.outbound.insert (canonicalAddrPort endpoint)
          peer.key }

def wrapKeyedSalamander (peers : List PeerKey) : SalamanderConn :=
  (wrapLoop [] peers {}).publishReceiveKeysLocked

def associateEndpoint (c : SalamanderConn) (endpoint : AddrPort) (key : Key) : SalamanderConn :=
  { c with outbound := c.outbound.insert (canonicalAddrPort endpoint) key }

def disassociateEndpoint (c : SalamanderConn) (endpoint : AddrPort)
    (expected : Key) : SalamanderConn :=
  if c.outbound.lookup (canonicalAddrPort endpoint) = some expected then
    { c with outbound := c.outbound.erase (canonicalAddrPort endpoint) }
  else c

/-- `xorWords`: the stream is repeated over the payload. -/
def xorWords (payload stream : Bytes) : Bytes :=
  payload.mapIdx fun i byte => byte ^^^ stream.getD (i % 32) 0

/-- `encodeWithPair`, with the salt it has drawn. -/
def encode (digests : Digests) (payload : Bytes) (capacity : Nat) (key : Key)
    (salt : Bytes) : Except String Bytes :=
  if payload.length = 0 ∨ payload.length + salamanderHeaderSize > maxUDPPayload then
    .error "invalid Salamander payload length"
  else if capacity < payload.length + salamanderHeaderSize then
    .error "Salamander output buffer is too short"
  else
    .ok (salt ++ digests.hint key salt ++ xorWords payload (digests.stream key salt))

/-- `decode` into a buffer of the given capacity. -/
def decode (digests : Digests) (c : SalamanderConn) (packet : Bytes)
    (capacity : Nat) : Option (Bytes × Key) × SalamanderConn :=
  if packet.length ≤ salamanderHeaderSize ∨
      capacity < packet.length - salamanderHeaderSize then (none, c)
  else
    let salt := packet.take salamanderSaltSize
    let hint := (packet.drop salamanderSaltSize).take salamanderHintSize
    let payload := packet.drop salamanderHeaderSize
    let matching (key : Key) : Bool := hint = digests.hint key salt
    match c.lastKey.filter matching with
    | some key => (some (xorWords payload (digests.stream key salt), key), c)
    | none =>
      match c.keySet.find? matching with
      | some key =>
        (some (xorWords payload (digests.stream key salt), key), { c with lastKey := some key })
      | none => (none, c)

/-- The snapshot holds the keys that are referenced, and the cached key is one
of them. -/
structure Published (c : SalamanderConn) : Prop where
  ordered : ∀ key, key ∈ c.keyOrder ↔ 0 < c.refs key
  nodup : c.keyOrder.Nodup
  snapshot : c.keySet = c.keyOrder
  cached : ∀ key, c.lastKey = some key → key ∈ c.keySet

variable {c : SalamanderConn}

theorem Published.mem_keySet (published : c.Published) (key : Key) :
    key ∈ c.keySet ↔ 0 < c.refs key := by
  rw [published.snapshot]
  exact published.ordered key

theorem publish_snapshot (ordered : ∀ key, key ∈ c.keyOrder ↔ 0 < c.refs key) :
    c.publishReceiveKeysLocked.keySet = c.keyOrder := by
  rw [publishReceiveKeysLocked, List.filter_eq_self]
  intro key member
  have positive := (ordered key).mp member
  simp
  omega

theorem addReceiveKeyLocked_refs (c : SalamanderConn) (key other : Key) :
    (c.addReceiveKeyLocked key).refs other = c.refs other + if other = key then 1 else 0 := by
  unfold addReceiveKeyLocked refs
  by_cases same : other = key
  · subst same
    simp [AList.lookup_insert]
  · simp [AList.lookup_insert_ne same, same]

theorem addReceiveKeyLocked_ordered (ordered : ∀ key, key ∈ c.keyOrder ↔ 0 < c.refs key)
    (nodup : c.keyOrder.Nodup) (key : Key) :
    (∀ other, other ∈ (c.addReceiveKeyLocked key).keyOrder ↔
        0 < (c.addReceiveKeyLocked key).refs other) ∧
      (c.addReceiveKeyLocked key).keyOrder.Nodup := by
  have known := ordered key
  constructor
  · intro other
    rw [addReceiveKeyLocked_refs]
    have knownOther := ordered other
    simp only [addReceiveKeyLocked]
    split
    · rw [List.mem_append, knownOther]
      by_cases same : other = key
      · simp [same]
      · simp [same]
    next counted =>
    by_cases same : other = key
    · subst same
      simp [knownOther]
      omega
    · simp [same, knownOther]
  · simp only [addReceiveKeyLocked]
    split
    · next fresh =>
      refine List.nodup_append.mpr ⟨nodup, List.nodup_singleton key, ?_⟩
      intro other member last lastMember same
      rw [List.mem_singleton.mp lastMember] at same
      rw [same, known] at member
      omega
    · exact nodup

theorem Published.acquire (published : c.Published) (key : Key) :
    (c.acquireReceiveKey key).Published := by
  obtain ⟨ordered, nodup⟩ := addReceiveKeyLocked_ordered published.ordered published.nodup key
  refine ⟨ordered, nodup, publish_snapshot ordered, ?_⟩
  intro cached last
  have member := published.cached cached last
  rw [acquireReceiveKey, publish_snapshot ordered, ordered, addReceiveKeyLocked_refs]
  have positive := (published.mem_keySet cached).mp member
  omega

@[simp] theorem acquireReceiveKey_refs (c : SalamanderConn) (key other : Key) :
    (c.acquireReceiveKey key).refs other = c.refs other + if other = key then 1 else 0 :=
  addReceiveKeyLocked_refs c key other

@[simp] theorem releaseReceiveKey_refs (c : SalamanderConn) (key other : Key) :
    (c.releaseReceiveKey key).refs other = c.refs other - if other = key then 1 else 0 := by
  unfold releaseReceiveKey publishReceiveKeysLocked refs
  by_cases same : other = key
  · subst same
    split
    · next few =>
      simp [AList.lookup_erase]
      omega
    · simp [AList.lookup_insert]
  · split
    · simp [AList.lookup_erase_ne same]
    · simp [AList.lookup_insert_ne same]

theorem Published.release (published : c.Published) (key : Key) :
    (c.releaseReceiveKey key).Published := by
  have keyOrder : (c.releaseReceiveKey key).keyOrder =
      if c.refs key ≤ 1 then c.keyOrder.erase key else c.keyOrder := by
    unfold releaseReceiveKey publishReceiveKeysLocked
    split <;> rfl
  have ordered : ∀ other, other ∈ (c.releaseReceiveKey key).keyOrder ↔
      0 < (c.releaseReceiveKey key).refs other := by
    intro other
    have known := published.ordered other
    rw [keyOrder]
    split
    · rw [published.nodup.mem_erase_iff, known]
      by_cases same : other = key
      · subst same
        simp
        omega
      · simp [same]
    · by_cases same : other = key
      · subst same
        rw [known]
        simp
        omega
      · simp [same, known]
  have lastKey : (c.releaseReceiveKey key).lastKey =
      if c.lastKey = some key then none else c.lastKey := by
    unfold releaseReceiveKey publishReceiveKeysLocked
    split <;> rfl
  have snapshot : (c.releaseReceiveKey key).keySet = (c.releaseReceiveKey key).keyOrder := by
    exact publish_snapshot ordered
  refine ⟨ordered, ?_, snapshot, ?_⟩
  · rw [keyOrder]
    split
    · exact published.nodup.erase key
    · exact published.nodup
  · intro cached last
    rw [lastKey] at last
    split at last
    · cases last
    next other =>
    have member := (published.mem_keySet cached).mp (published.cached cached last)
    have different : cached ≠ key := by
      rintro rfl
      exact other last
    rw [snapshot, ordered, releaseReceiveKey_refs, if_neg different]
    omega

/-- A packet is decoded with an accepted key that has its hint. -/
theorem Published.decode (published : c.Published) (digests : Digests) (packet : Bytes)
    (capacity : Nat) :
    ((c.decode digests packet capacity).2.Published ∧
      (c.decode digests packet capacity).2.keySet = c.keySet ∧
      (c.decode digests packet capacity).2.refs = c.refs) ∧
      ∀ plain key, (c.decode digests packet capacity).1 = some (plain, key) → key ∈ c.keySet ∧
            (packet.drop salamanderSaltSize).take salamanderHintSize =
              digests.hint key (packet.take salamanderSaltSize) := by
  unfold SalamanderConn.decode
  split
  · exact ⟨⟨published, rfl, rfl⟩, nofun⟩
  · dsimp only
    split
    · next key cached =>
      obtain ⟨last, hinted⟩ := Option.filter_eq_some_iff.mp cached
      refine ⟨⟨published, rfl, rfl⟩, ?_⟩
      rintro plain _ ⟨⟩
      exact ⟨published.cached key last, of_decide_eq_true hinted⟩
    · split
      · next key found =>
        have member := List.mem_of_find?_eq_some found
        have hinted := List.find?_some found
        refine ⟨⟨⟨published.ordered, published.nodup, published.snapshot, ?_⟩, rfl, rfl⟩, ?_⟩
        · rintro _ ⟨⟩
          exact member
        · rintro plain _ ⟨⟩
          exact ⟨member, of_decide_eq_true hinted⟩
      · exact ⟨⟨published, rfl, rfl⟩, nofun⟩

theorem encode_hint {digests : Digests} {payload packet salt : Bytes}
    {capacity : Nat} {key : Key} (sized : salt.length = salamanderSaltSize)
    (encodes : encode digests payload capacity key salt = .ok packet) :
    packet.take salamanderSaltSize = salt ∧
      (packet.drop salamanderSaltSize).take salamanderHintSize = digests.hint key salt := by
  unfold encode at encodes
  split at encodes
  · cases encodes
  · split at encodes
    · cases encodes
    · cases encodes
      rw [List.append_assoc, ← sized, List.take_left, List.drop_left,
        ← digests.hint_length key salt, List.take_left]
      exact ⟨rfl, rfl⟩

theorem wrapLoop_refs (seen : List Key) (peers : List PeerKey) (c : SalamanderConn) (key : Key) :
    (wrapLoop seen peers c).refs key =
      c.refs key + if key ∉ seen ∧ key ∈ peers.map PeerKey.key then 1
        else 0 := by
  induction peers generalizing seen c with
  | nil => simp [wrapLoop]
  | cons peer rest ih =>
    have added : (wrapLoop seen (peer :: rest) c).refs key = (if peer.key ∈ seen then c
          else c.addReceiveKeyLocked peer.key).refs key +
        if key ∉ (if peer.key ∈ seen then seen else peer.key :: seen) ∧
          key ∈ rest.map PeerKey.key then 1 else 0 := by
      rw [wrapLoop]
      split
      · exact ih _ _
      · exact ih _ _
    rw [added]
    by_cases known : peer.key ∈ seen
    · simp only [if_pos known, List.map_cons, List.mem_cons]
      by_cases same : key = peer.key
      · subst same
        simp [known]
      · simp [same]
    · simp only [if_neg known, addReceiveKeyLocked_refs, List.map_cons, List.mem_cons]
      by_cases same : key = peer.key
      · subst same
        simp [known]
      · simp [same]

theorem wrapLoop_ordered (seen : List Key) (peers : List PeerKey)
    (ordered : ∀ key, key ∈ c.keyOrder ↔ 0 < c.refs key) (nodup : c.keyOrder.Nodup)
    (uncached : c.lastKey = none) :
    (∀ key, key ∈ (wrapLoop seen peers c).keyOrder ↔ 0 < (wrapLoop seen peers c).refs key) ∧
      (wrapLoop seen peers c).keyOrder.Nodup ∧
      (wrapLoop seen peers c).lastKey = none := by
  induction peers generalizing seen c with
  | nil => exact ⟨ordered, nodup, uncached⟩
  | cons peer rest ih =>
    obtain ⟨addedOrdered, addedNodup⟩ := addReceiveKeyLocked_ordered ordered nodup peer.key
    rw [wrapLoop]
    by_cases known : peer.key ∈ seen
    · simp only [if_pos known]
      split
      · exact ih seen ordered nodup uncached
      · exact ih seen ordered nodup uncached
    · simp only [if_neg known]
      split
      · exact ih _ addedOrdered addedNodup uncached
      · exact ih _ addedOrdered addedNodup uncached

theorem wrap_published (peers : List PeerKey) : (wrapKeyedSalamander peers).Published := by
  obtain ⟨ordered, nodup, uncached⟩ := wrapLoop_ordered [] peers
    (c := {}) (by simp [refs]) List.nodup_nil rfl
  refine ⟨ordered, nodup, publish_snapshot ordered, ?_⟩
  intro key last
  rw [wrapKeyedSalamander, publishReceiveKeysLocked, uncached] at last
  cases last

theorem wrap_refs (peers : List PeerKey) (key : Key) : (wrapKeyedSalamander peers).refs key =
      if key ∈ peers.map PeerKey.key then 1 else 0 := by
  have empty : ({} : SalamanderConn).refs key = 0 := rfl
  have counted := wrapLoop_refs [] peers {} key
  rw [empty] at counted
  change (wrapLoop [] peers {}).refs key = _
  simpa using counted

end SalamanderConn

/-- A hash of zeros, and a connection with one key. -/
def zeroDigests : Digests where
  hint _ _ := List.replicate salamanderHintSize 0
  stream _ _ := List.replicate 32 0
  hint_length _ _ := List.length_replicate
  stream_length _ _ := List.length_replicate

def zeroKey : Key := ⟨List.replicate 32 0, List.length_replicate⟩

def zeroConn : SalamanderConn :=
  SalamanderConn.wrapKeyedSalamander [⟨zeroKey, none⟩]

end WgQuic.Obfs
