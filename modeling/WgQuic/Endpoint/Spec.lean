import WgQuic.Net.Syntax

/-!
# Configured endpoints

The parser of configured and runtime peer endpoints: a host and a port, where
the host may be a numeric address.
-/

namespace WgQuic.PeerEndpoint

open Net
open Numeral (isDigit)

/-- The end of `net.SplitHostPort`: no bracket is left over. -/
def unbracketed (host port : List Char) : Except String (List Char × List Char) :=
  if '[' ∈ host ++ port then .error "unexpected '[' in address"
  else if ']' ∈ host ++ port then .error "unexpected ']' in address"
  else .ok (host, port)

/-- A host in brackets, without the first of them.  The first `]` stands just
before the last colon. -/
def splitBracketed (text : List Char) : Except String (List Char × List Char) :=
  match Strings.cut ']' text with
  | none => .error "missing ']' in address"
  | some (_, []) => .error "missing port in address"
  | some (host, mark :: port) =>
    if mark ≠ ':' then .error "missing port in address"
    else if ':' ∈ port then .error "too many colons in address"
    else unbracketed host port

/-- `net.SplitHostPort` -/
def splitHostPort (text : List Char) : Except String (List Char × List Char) :=
  match Strings.cutLast ':' text with
  | none => .error "missing port in address"
  | some (host, port) =>
    if text.head? = some '[' then splitBracketed text.tail
    else if ':' ∈ host then .error "too many colons in address"
    else unbracketed host port

/-- `net.JoinHostPort` -/
def joinHostPort (host port : List Char) : List Char :=
  if ':' ∈ host then '[' :: (host ++ ']' :: ':' :: port)
  else host ++ ':' :: port

section HostPort

variable {text host port : List Char}

/-- The host and the port of a text, and the text itself. -/
structure Splits (text host port : List Char) : Prop where
  shape : text = '[' :: (host ++ ']' :: ':' :: port) ∨ text = host ++ ':' :: port ∧ ':' ∉ host
  hostOpen : '[' ∉ host
  hostClose : ']' ∉ host
  portOpen : '[' ∉ port
  portClose : ']' ∉ port
  colon : ':' ∉ port

theorem unbracketed_ok {parts : List Char × List Char} (split : unbracketed host port = .ok parts) :
    parts = (host, port) ∧ '[' ∉ host ++ port ∧ ']' ∉ host ++ port := by
  unfold unbracketed at split
  split at split
  · cases split
  next opened =>
  split at split
  · cases split
  next closed =>
  cases split
  exact ⟨rfl, opened, closed⟩

theorem splits_of_ok (split : splitHostPort text = .ok (host, port)) : Splits text host port := by
  unfold splitHostPort at split
  split at split
  · cases split
  next before after found =>
  obtain ⟨whole, last⟩ := Strings.cutLast_eq_some found
  split at split
  · next bracket =>
    obtain ⟨inner, rfl⟩ : ∃ inner, text = '[' :: inner := by
      cases text with
      | nil => cases bracket
      | cons first inner =>
        cases bracket
        exact ⟨inner, rfl⟩
    unfold splitBracketed at split
    split at split
    · cases split
    · cases split
    next name mark rest cut =>
    split at split
    · cases split
    next colon =>
    split at split
    · cases split
    next single =>
    obtain ⟨parts, opened, closed⟩ := unbracketed_ok split
    cases parts
    obtain ⟨rfl, -⟩ := Strings.cut_eq_some cut
    rw [List.mem_append, not_or] at opened closed
    rw [not_not.mp colon]
    exact ⟨.inl rfl, opened.1, closed.1, opened.2, closed.2, single⟩
  · split at split
    · cases split
    next single =>
    obtain ⟨parts, opened, closed⟩ := unbracketed_ok split
    cases parts
    rw [List.mem_append, not_or] at opened closed
    exact ⟨.inr ⟨whole, single⟩, opened.1, closed.1, opened.2, closed.2, last⟩

theorem Splits.ok (splits : Splits text host port) : splitHostPort text = .ok (host, port) := by
  have opened : '[' ∉ host ++ port := by
    rw [List.mem_append, not_or]
    exact ⟨splits.hostOpen, splits.portOpen⟩
  have closed : ']' ∉ host ++ port := by
    rw [List.mem_append, not_or]
    exact ⟨splits.hostClose, splits.portClose⟩
  rcases splits.shape with rfl | ⟨rfl, single⟩
  · have last : Strings.cutLast ':' ('[' :: (host ++ ']' :: ':' :: port)) =
        some ('[' :: (host ++ [']']), port) := by
      rw [← Strings.cutLast_append splits.colon]
      simp
    rw [splitHostPort, last]
    simp [splitBracketed, Strings.cut_append splits.hostClose, splits.colon,
      unbracketed, splits.hostOpen, splits.hostClose, splits.portOpen, splits.portClose]
  · have plain : ¬(host ++ ':' :: port).head? = some '[' := by
      cases host with
      | nil => simp
      | cons first rest =>
        intro bracket
        cases bracket
        exact splits.hostOpen List.mem_cons_self
    rw [splitHostPort, Strings.cutLast_append splits.colon]
    simp only [plain, if_false, single]
    rw [unbracketed, if_neg opened, if_neg closed]

theorem splits_join (hostOpen : '[' ∉ host) (hostClose : ']' ∉ host) (portOpen : '[' ∉ port)
    (portClose : ']' ∉ port) (colon : ':' ∉ port) : Splits (joinHostPort host port) host port := by
  refine ⟨?_, hostOpen, hostClose, portOpen, portClose, colon⟩
  unfold joinHostPort
  split
  · exact .inl rfl
  · next single => exact .inr ⟨rfl, single⟩

end HostPort

/-- An endpoint with an `address` is numeric, and its host is the text of it. -/
structure Spec where
  host : List Char
  port : Nat
  address : Option Addr := none
deriving DecidableEq, Repr

/-- `strconv.ParseUint(text, 10, bits)` -/
def parseUint (bits : Nat) (text : List Char) : Option Nat :=
  (Numeral.read 10 text).filter (· < 2 ^ bits)

def isBlank (symbol : Char) : Bool :=
  symbol == ' ' || symbol == '\t' || symbol == '\r' || symbol == '\n'

/-- A numeric host is written the way its address is. -/
def specOf (host : List Char) (port : Nat) : Spec :=
  match parseAddr host with
  | none => { host, port }
  | some address => { host := address.unmap.text, port, address := some address.unmap }

def parse (value : List Char) : Except String Spec :=
  match splitHostPort value with
  | .error err => .error err
  | .ok (host, portText) =>
    if host = [] then .error "host must not be empty"
    else if host.any isBlank then .error "host must not contain whitespace"
    else
      match parseUint 16 portText with
      | none => .error "port must be between 1 and 65535"
      | some port =>
        if port = 0 then .error "port must be between 1 and 65535"
        else .ok (specOf host port)

/-- `netip.AddrPort.String` -/
def addrPortText (address : Addr) (port : Nat) : List Char :=
  match address with
  | .v4 _ => address.text ++ ':' :: decimal port
  | .v6 _ _ => '[' :: (address.text ++ ']' :: ':' :: decimal port)

section Parse

variable {value : List Char} {spec : Spec}

/-- A text with a host and a port that are accepted. -/
structure Reads (value host : List Char) (port : Nat) : Prop where
  split : ∃ portText, Splits value host portText ∧ parseUint 16 portText = some port
  filled : host ≠ []
  blank : host.any isBlank = false
  positive : port ≠ 0

theorem reads_of_parse (parsed : parse value = .ok spec) :
    ∃ host port, Reads value host port ∧ spec = specOf host port := by
  unfold parse at parsed
  split at parsed
  · cases parsed
  next host portText found =>
  split at parsed
  · cases parsed
  next filled =>
  split at parsed
  · cases parsed
  next blank =>
  split at parsed
  · cases parsed
  next port read =>
  split at parsed
  · cases parsed
  next positive =>
  cases parsed
  exact ⟨host, port, ⟨⟨portText, splits_of_ok found, read⟩, filled, by simpa using blank,
    positive⟩, rfl⟩

theorem Reads.parse {host : List Char} {port : Nat} (reads : Reads value host port) :
    parse value = .ok (specOf host port) := by
  obtain ⟨portText, splits, read⟩ := reads.split
  rw [PeerEndpoint.parse, splits.ok]
  simp only [reads.filled, reads.blank, read, reads.positive, if_false]
  rfl

theorem parseUint_decimal {bits value : Nat} (small : value < 2 ^ bits) :
    parseUint bits (decimal value) = some value := by
  simp [parseUint, decimal, Numeral.read_toDigits, small]

end Parse

end WgQuic.PeerEndpoint
