import Mathlib.Data.List.Lex
import WgQuic.Configuration.Model
import WgQuic.Lib.Ranking

/-!
# Canonical configurations

`FromConfig` brings a configuration into a canonical form: keys, tables, DNS
entries and endpoints are written in one way, prefixes are masked, and peers and
prefixes are sorted.  What it refuses is refused with the place of the fault.
-/

namespace WgQuic.Canonical

open Net WgQuic.Configuration

inductive HostnameError where
  | length
  | label (label : Text)
  | hyphen (label : Text)
  | character (label : Text)
deriving DecidableEq, Repr

inductive EndpointError where
  | parse (err : String)
  | unspecified
  | hostname (err : HostnameError)
deriving DecidableEq, Repr

inductive TransportError where
  | carrier (value : Text)
  | congestion (value : Text)
  | fec (value : Text)
  | obfs (value : Text)
  | dataShards
  | interleave
deriving DecidableEq, Repr

/-- Peers, prefixes and DNS entries are numbered from one. -/
inductive CanonicalError where
  | privateKey (err : KeyError)
  | addressInvalid
  | addressDuplicated (address : NetPrefix)
  | dnsEmpty (number : Nat)
  | dns (number : Nat) (err : HostnameError)
  | transport (err : TransportError)
  | publicKey (peer : Nat) (err : KeyError)
  | duplicated (peer : Nat)
  | presharedKey (peer : Nat) (err : KeyError)
  | endpoint (peer : Nat) (err : EndpointError)
  | fecPolicy (peer : Nat) (value : Text)
  | prefixInvalid (peer number : Nat)
  | prefixDuplicated (peer : Nat) (owned : NetPrefix)
  | prefixOwned (peer : Nat) (owned : NetPrefix) (owner : Text)
  | validate (err : ConfigError)
deriving DecidableEq

def canonicalKey (value : Text) : Except KeyError Text :=
  match decodeString value with
  | none => .error .notBase64
  | some decoded =>
    if decoded.length ≠ 32 then .error (.length decoded.length)
    else if value ≠ Base64.encode decoded then .error .notCanonical
    else .ok (Base64.encode decoded)

def sortPrefixes (prefixes : List NetPrefix) : List NetPrefix :=
  prefixes.mergeSort fun left right => left.val.le right.val

def byteLength (text : Text) : Nat :=
  (text.map Char.utf8Size).sum

def isLabelSymbol (symbol : Char) : Bool :=
  ('a'.toNat ≤ symbol.toNat && symbol.toNat ≤ 'z'.toNat) ||
    ('0'.toNat ≤ symbol.toNat && symbol.toNat ≤ '9'.toNat) || symbol == '-'

def checkLabel (label : Text) : Except HostnameError Unit :=
  if label = [] ∨ 63 < byteLength label then .error (.label label)
  else if label.head? = some '-' ∨ label.getLast? = some '-' then .error (.hyphen label)
  else if label.all isLabelSymbol then .ok ()
  else .error (.character label)

/-- The loop over the labels. -/
def checkLabels : List Text → Except HostnameError Unit
  | [] => .ok ()
  | label :: rest =>
    match checkLabel label with
    | .error err => .error err
    | .ok () => checkLabels rest

section Letters

variable (letters : Strings.LowerCase)

def canonicalHostname (value : Text) : Except HostnameError Text :=
  let value := letters.text (Strings.trimSuffix ['.'] (Strings.trimSpace value))
  if value = [] ∨ 253 < byteLength value then .error .length
  else
    match checkLabels (value.splitOn '.') with
    | .error err => .error err
    | .ok () => .ok value

def isUnspecified (addr : Addr) : Bool :=
  addr = .v4 0 ∨ addr = .v6 0 []

def canonicalEndpoint (value : Text) : Except EndpointError Text :=
  match PeerEndpoint.parse value with
  | .error err => .error (.parse err)
  | .ok spec =>
    match spec.address with
    | some address =>
      if isUnspecified address then .error .unspecified
      else .ok (PeerEndpoint.addrPortText address spec.port)
    | none =>
      match canonicalHostname letters spec.host with
      | .error err => .error (.hostname err)
      | .ok host => .ok (PeerEndpoint.joinHostPort host (decimal spec.port))

/-- An entry that is not an address is a domain, or a routing domain after `~`. -/
def canonicalDomain (value : Text) : Except HostnameError Text :=
  if value.head? = some '~' then
    if value.tail = ['.'] then .ok "~.".toList
    else (canonicalHostname letters value.tail).map ('~' :: ·)
  else canonicalHostname letters value

def canonicalDNS (number : Nat) (value : Text) : Except CanonicalError Text :=
  let value := Strings.trimSpace value
  if value = [] then .error (.dnsEmpty number)
  else
    match parseAddr value with
    | some address => .ok address.unmap.text
    | none => (canonicalDomain letters value).mapError (.dns number)

def canonicalizeDNS : Nat → List Text → Except CanonicalError (List Text)
  | _, [] => .ok []
  | number, value :: rest => do
      let value ← canonicalDNS letters number value
      let rest ← canonicalizeDNS (number + 1) rest
      return value :: rest

/-- The loop over the addresses, with the ones before. -/
def checkAddresses : List NetPrefix → List NetPrefix → Except CanonicalError Unit
  | _, [] => .ok ()
  | seen, address :: rest =>
    if address.val.isValid = false then .error .addressInvalid
    else if address ∈ seen then .error (.addressDuplicated address)
    else checkAddresses (address :: seen) rest

def canonicalTable (value : Text) : Text :=
  let table := letters.text (Strings.trimSpace value)
  if table = [] then "auto".toList else table

def canonicalizeInterface (iface : Interface) : Except CanonicalError Interface := do
  let privateKey ← (canonicalKey iface.privateKey).mapError .privateKey
  checkAddresses [] iface.addresses
  let dns ← canonicalizeDNS letters 1 iface.dns
  return { iface with
    privateKey
    mtu := if iface.mtu = 0 then 1280 else iface.mtu
    table := canonicalTable letters iface.table
    addresses := sortPrefixes iface.addresses
    dns }

/-- An empty text takes its default. -/
def orDefault (value fallback : Text) : Text :=
  if value = [] then fallback else value

def withDefaults (transport : Transport) : Transport :=
  { transport with
    carrier := orDefault transport.carrier defaultTransport.carrier
    congestion := orDefault transport.congestion defaultTransport.congestion
    fec := orDefault transport.fec defaultTransport.fec
    obfs := orDefault transport.obfs defaultTransport.obfs }

def checkTransport (transport : Transport) : Except TransportError Unit :=
  if transport.carrier ≠ "quic".toList then .error (.carrier transport.carrier)
  else if transport.congestion ∉ ["auto".toList, "reno".toList, "cubic".toList,
      "model".toList] then .error (.congestion transport.congestion)
  else if transport.fec ∉ ["auto".toList, "off".toList] then .error (.fec transport.fec)
  else if transport.obfs ∉ ["none".toList, "salamander".toList] then
    .error (.obfs transport.obfs)
  else if transport.fecDataShards < 0 ∨ 32 < transport.fecDataShards then .error .dataShards
  else if transport.fecInterleave < 0 ∨ 4 < transport.fecInterleave then .error .interleave
  else .ok ()

def canonicalizeTransport (transport : Transport) : Except TransportError Transport :=
  (checkTransport (withDefaults transport)).map fun _ => withDefaults transport

def defaultFECPolicy : Text := "balanced".toList

def fecPolicies : List Text :=
  ["latency".toList, "balanced".toList, "throughput".toList]

/-- The peer of a key; a later one replaces an earlier one. -/
def activePeer (active : List Peer) (publicKey : Text) : Option Peer :=
  active.reverse.find? fun peer => peer.publicKey = publicKey

/-- An omitted preshared key is that of the active peer. -/
def canonicalPresharedKey (active : List Peer) (publicKey value : Text) : Except KeyError Text :=
  if value = [] then .ok (((activePeer active publicKey).map Peer.presharedKey).getD [])
  else canonicalKey value

def canonicalPeerEndpoint (value : Text) : Except EndpointError Text :=
  if value = [] then .ok [] else canonicalEndpoint letters value

/-- The loop over the prefixes of a peer: `seen` has its earlier ones, `owners` those of
the earlier peers. -/
def canonicalPrefixes (peer : Nat) (owners : List (NetPrefix × Text)) :
    Nat → List NetPrefix → List NetPrefix → Except CanonicalError (List NetPrefix)
  | _, _, [] => .ok []
  | number, seen, owned :: rest =>
    if owned.val.isValid = false then .error (.prefixInvalid peer number)
    else if owned.masked ∈ seen then .error (.prefixDuplicated peer owned.masked)
    else
      match owners.lookup owned.masked with
      | some owner => .error (.prefixOwned peer owned.masked owner)
      | none => do
          let rest ← canonicalPrefixes peer owners (number + 1) (owned.masked :: seen) rest
          return owned.masked :: rest

/-- The loop over the peers, with the keys and the prefixes of the earlier ones. -/
def canonicalPeers (active : List Peer) :
    Nat → List Text → List (NetPrefix × Text) → List Peer → Except CanonicalError (List Peer)
  | _, _, _, [] => .ok []
  | number, keys, owners, peer :: rest => do
      let publicKey ← (canonicalKey peer.publicKey).mapError (.publicKey number)
      if publicKey ∈ keys then throw (.duplicated number)
      let presharedKey ← (canonicalPresharedKey active publicKey peer.presharedKey).mapError
        (.presharedKey number)
      let endpoint ← (canonicalPeerEndpoint letters peer.endpoint).mapError (.endpoint number)
      let fecPolicy := orDefault peer.fecPolicy defaultFECPolicy
      if fecPolicy ∉ fecPolicies then throw (.fecPolicy number fecPolicy)
      let allowedIPs ← canonicalPrefixes number owners 1 [] peer.allowedIPs
      let rest ← canonicalPeers active (number + 1) (publicKey :: keys)
        (owners ++ allowedIPs.map fun owned => (owned, publicKey)) rest
      return { peer with
        publicKey, presharedKey, endpoint, fecPolicy, allowedIPs := sortPrefixes allowedIPs }
          :: rest

def keyBytes (publicKey : Text) : List Nat :=
  ((decodeString publicKey).getD []).map UInt8.toNat

/-- `bytes.Compare` of the decoded keys -/
def peerLe (left right : Peer) : Bool :=
  keyBytes left.publicKey ≤ keyBytes right.publicKey

def canonicalizePeers (active peers : List Peer) : Except CanonicalError (List Peer) :=
  (canonicalPeers letters active 1 [] [] peers).map fun peers => peers.mergeSort peerLe

/-- `FromConfig` up to the digest; `active` has the peers of the active configuration. -/
def canonicalize (cfg : Config) (active : List Peer) : Except CanonicalError Config := do
  let interface ← canonicalizeInterface letters cfg.interface
  let transport ← (canonicalizeTransport cfg.transport).mapError .transport
  let peers ← canonicalizePeers letters active cfg.peers
  let candidate : Config := { interface, peers, transport }
  let _ ← candidate.validate.mapError .validate
  return candidate

end Letters

end WgQuic.Canonical
