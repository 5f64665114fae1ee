import WgQuic.Endpoint.Spec
import WgQuic.Lib.Base64
import WgQuic.Lib.Fallible

/-!
# Configurations

The configuration of a tunnel and the checks of `Validate`.
-/

namespace WgQuic.Configuration

open Net

abbrev Text := List Char

instance : LawfulBEq Text := inferInstance

/-- `netip.Prefix`: its address never has a zone. -/
abbrev NetPrefix := { owned : Net.Prefix // owned.addr.withoutZone = owned.addr }

instance : LawfulBEq NetPrefix := inferInstance

namespace NetPrefix

/-- `netip.PrefixFrom` of the address and the bits of a prefix. -/
def ofPrefix (owned : Prefix) : NetPrefix :=
  ⟨prefixFrom owned.addr owned.bits, by cases owned with | mk addr bits => cases addr <;> rfl⟩

theorem ofPrefix_val (owned : NetPrefix) : ofPrefix owned.val = owned := by
  apply Subtype.ext
  change prefixFrom owned.val.addr owned.val.bits = owned.val
  rw [prefixFrom, owned.property]

def masked (owned : NetPrefix) : NetPrefix :=
  ⟨owned.val.masked, by
    have unzoned := owned.property
    unfold Prefix.masked
    cases addr : owned.val.addr with
    | v4 value => rfl
    | v6 value zone =>
      rw [addr] at unzoned
      cases unzoned
      rfl⟩

end NetPrefix

structure Interface where
  privateKey : Text := []
  addresses : List NetPrefix := []
  listenPort : UInt16 := 0
  fwMark : UInt32 := 0
  dns : List Text := []
  mtu : Int := 0
  table : Text := []
  preUp : List Text := []
  postUp : List Text := []
  preDown : List Text := []
  postDown : List Text := []
  saveConfig : Bool := false
deriving DecidableEq

structure Peer where
  publicKey : Text := []
  presharedKey : Text := []
  allowedIPs : List NetPrefix := []
  endpoint : Text := []
  persistentKeepalive : UInt16 := 0
  fecPolicy : Text := []
deriving DecidableEq

structure Transport where
  carrier : Text := []
  congestion : Text := []
  fec : Text := []
  obfs : Text := []
  fecDataShards : Int := 0
  fecInterleave : Int := 0
deriving DecidableEq

structure Config where
  interface : Interface := {}
  peers : List Peer := []
  transport : Transport := {}
deriving DecidableEq

def defaultTransport : Transport :=
  { carrier := "quic".toList
    congestion := "auto".toList
    fec := "auto".toList
    obfs := "salamander".toList }

inductive KeyError where
  | required
  | notBase64
  | length (got : Nat)
  /-- Only `reconcile` asks for the canonical text of a key. -/
  | notCanonical
deriving DecidableEq, Repr

/-- `base64.StdEncoding.DecodeString` -/
def decodeString (value : Text) : Option (List UInt8) :=
  Base64.decode false (String.ofList value)

def decodeKey (value : Text) : Except KeyError (List UInt8) :=
  if value = [] then .error .required
  else
    match decodeString value with
    | none => .error .notBase64
    | some key => if key.length ≠ 32 then .error (.length key.length) else .ok key

/-- Where a check failed; peers are numbered from one. -/
inductive ConfigError where
  | privateKey (err : KeyError)
  | publicKey (peer : Nat) (err : KeyError)
  | duplicate (peer : Nat)
  | presharedKey (peer : Nat) (err : KeyError)
  | endpoint (peer : Nat) (err : String)
deriving DecidableEq, Repr

/-- The checks of one peer, apart from duplicates. -/
def validatePeer (number : Nat) (peer : Peer) : Except ConfigError Unit := do
  if peer.presharedKey ≠ [] then
    let _ ← (decodeKey peer.presharedKey).mapError (.presharedKey number)
  if peer.endpoint ≠ [] then
    let _ ← (PeerEndpoint.parse peer.endpoint).mapError (.endpoint number)

/-- The loop over the peers; `seen` has the key texts of the earlier ones. -/
def validatePeers : Nat → List Text → List Peer → Except ConfigError Unit
  | _, _, [] => .ok ()
  | number, seen, peer :: rest => do
      let _ ← (decodeKey peer.publicKey).mapError (.publicKey number)
      if peer.publicKey ∈ seen then throw (.duplicate number)
      validatePeer number peer
      validatePeers (number + 1) (peer.publicKey :: seen) rest

def Config.validate (cfg : Config) : Except ConfigError Unit := do
  let _ ← (decodeKey cfg.interface.privateKey).mapError .privateKey
  validatePeers 1 [] cfg.peers

end WgQuic.Configuration
