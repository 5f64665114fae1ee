import WgQuic.Reconcile.Canonical

/-!
# Durable route state

The ledger of endpoint routes and the journal of peer routes are kept as JSON
with a checksum.  What was written is read back if it is not larger than a
reader accepts.  The writers do not make sure of that, for some of the texts
may have any length.
-/

namespace WgQuic.Platform

open WgQuic.Configuration (Text)
open WgQuic.Canonical (byteLength isUnspecified)
open Net

/-! ## Indented JSON -/

section Indented

open List

/-- How `encoding/json` writes a character of a string. -/
def escape (symbol : Char) : Text :=
  if symbol = '"' ∨ symbol = '\\' then ['\\', symbol]
  else if symbol = '\n' then ['\\', 'n']
  else if symbol = '\r' then ['\\', 'r']
  else if symbol = '\t' then ['\\', 't']
  else if symbol.toNat = 8 then ['\\', 'b']
  else if symbol.toNat = 12 then ['\\', 'f']
  else if symbol.toNat < 32 ∨ symbol = '<' ∨ symbol = '>' ∨ symbol = '&' ∨
      symbol.toNat = 0x2028 ∨ symbol.toNat = 0x2029 then
    ['\\', 'u'] ++ Numeral.encodePairs [UInt8.ofNat (symbol.toNat / 256), UInt8.ofNat symbol.toNat]
  else [symbol]

def quoted (value : Text) : Text :=
  '"' :: value.flatMap escape ++ ['"']

def member (name : String) (value : Text) : Text :=
  quoted name.toList ++ [':', ' '] ++ value

/-- A member that is left out when it is empty. -/
def optional (name : String) (value : Text) : List Text :=
  if value = [] then [] else [member name (quoted value)]

def newline (depth : Nat) : Text :=
  '\n' :: List.replicate (2 * depth) ' '

/-- An array or an object, with each of its members on a line. -/
def block (opening closing : Char) (depth : Nat) (members : List Text) : Text :=
  if members = [] then [opening, closing]
  else
    opening :: [','].intercalate (members.map (newline (depth + 1) ++ ·)) ++
      newline depth ++ [closing]

theorem byteLength_append (left right : Text) :
    byteLength (left ++ right) = byteLength left + byteLength right := by
  simp [byteLength]

theorem byteLength_cons (symbol : Char) (rest : Text) :
    byteLength (symbol :: rest) = symbol.utf8Size + byteLength rest := by
  simp [byteLength]

/-- The bytes of a character inside a string. -/
def escapedSize (symbol : Char) : Nat :=
  if symbol = '"' ∨ symbol = '\\' ∨ symbol = '\n' ∨ symbol = '\r' ∨ symbol = '\t' ∨
      symbol.toNat = 8 ∨ symbol.toNat = 12 then 2
  else if symbol.toNat < 32 ∨ symbol = '<' ∨ symbol = '>' ∨ symbol = '&' ∨
      symbol.toNat = 0x2028 ∨ symbol.toNat = 0x2029 then 6
  else symbol.utf8Size

def textSize (value : Text) : Nat :=
  (value.map escapedSize).sum

theorem byteLength_of_ascii {value : Text} (ascii : ∀ symbol ∈ value, symbol.utf8Size = 1) :
    byteLength value = value.length := by
  have sizes : value.map Char.utf8Size = List.replicate value.length 1 :=
    eq_replicate_iff.mpr ⟨length_map _, forall_mem_map.mpr ascii⟩
  rw [byteLength, sizes, sum_replicate_nat, Nat.mul_one]

theorem sizes_digitChar {value : Nat} (small : value < 16) :
    value.digitChar.utf8Size = 1 ∧ escapedSize value.digitChar = 1 := by
  decide +revert

theorem sizes_of_mem_encodePairs {bytes : List UInt8} {symbol : Char}
    (listed : symbol ∈ Numeral.encodePairs bytes) :
    symbol.utf8Size = 1 ∧ escapedSize symbol = 1 := by
  obtain ⟨byte, -, listed⟩ := mem_flatMap.mp listed
  have bound := byte.toNat_lt
  rcases mem_pair.mp listed with rfl | rfl
  · exact sizes_digitChar (by omega)
  · exact sizes_digitChar (by omega)

theorem textSize_encodePairs (bytes : List UInt8) :
    textSize (Numeral.encodePairs bytes) = 2 * bytes.length := by
  have sizes : (Numeral.encodePairs bytes).map escapedSize =
      List.replicate (Numeral.encodePairs bytes).length 1 :=
    eq_replicate_iff.mpr ⟨length_map _, forall_mem_map.mpr
      fun _ listed => (sizes_of_mem_encodePairs listed).2⟩
  rw [textSize, sizes, sum_replicate_nat, Nat.mul_one, Numeral.length_encodePairs]

theorem byteLength_decimal (value : Nat) : byteLength (decimal value) = (decimal value).length := by
  refine byteLength_of_ascii fun symbol listed => Char.utf8Size_eq_one_iff.mpr ?_
  have digit := Nat.isDigit_of_mem_toDigits (by decide) (Nat.le_refl 10) listed
  simp only [Char.isDigit, Bool.and_eq_true, decide_eq_true_eq] at digit
  exact UInt32.le_trans digit.2 (by decide)

theorem byteLength_escape (symbol : Char) : byteLength (escape symbol) = escapedSize symbol := by
  unfold escape
  split
  · next special =>
    rcases special with rfl | rfl <;> rfl
  iterate 5
    split
    · rw [escapedSize, if_pos (by tauto)]
      rfl
  split
  · next long =>
    rw [escapedSize, if_neg (by tauto), if_pos long, byteLength_of_ascii]
    · rfl
    · rw [forall_mem_append]
      exact ⟨by simp; decide, fun _ listed => (sizes_of_mem_encodePairs listed).1⟩
  · next short =>
    rw [escapedSize, if_neg (by tauto), if_neg short]
    exact Nat.add_zero _

theorem byteLength_quoted (value : Text) : byteLength (quoted value) = textSize value + 2 := by
  have inner : byteLength (value.flatMap escape) = textSize value := by
    induction value with
    | nil => rfl
    | cons symbol rest ih =>
      rw [flatMap_cons, byteLength_append, ih, byteLength_escape]
      exact sum_cons.symm
  have quote : '"'.utf8Size = 1 ∧ byteLength ['"'] = 1 := by decide
  rw [quoted, byteLength_append, byteLength_cons]
  omega

theorem byteLength_member (name : String) (value : Text) :
    byteLength (member name value) = textSize name.toList + byteLength value + 4 := by
  have colon : byteLength [':', ' '] = 2 := by decide
  rw [member, byteLength_append, byteLength_append, byteLength_quoted]
  omega

theorem byteLength_newline (depth : Nat) : byteLength (newline depth) = 2 * depth + 1 := by
  have blank : '\n'.utf8Size = 1 ∧ ' '.utf8Size = 1 := by decide
  rw [newline, byteLength_cons, byteLength, map_replicate, sum_replicate_nat, blank.2]
  omega

/-- Every line of a block has its indent and a comma, except that the last has no comma. -/
def linesSize (depth : Nat) (lines : List Text) : Nat :=
  (lines.map fun line => byteLength line + (2 * depth + 4)).sum

@[simp]
theorem linesSize_nil (depth : Nat) : linesSize depth [] = 0 := rfl

@[simp]
theorem linesSize_cons (depth : Nat) (line : Text) (lines : List Text) :
    linesSize depth (line :: lines) = byteLength line + (2 * depth + 4) + linesSize depth lines :=
  sum_cons

@[simp]
theorem linesSize_append (depth : Nat) (lines more : List Text) :
    linesSize depth (lines ++ more) = linesSize depth lines + linesSize depth more := by
  simp [linesSize]

theorem byteLength_lines (depth : Nat) (first : Text) (rest : List Text) :
    byteLength ([','].intercalate ((first :: rest).map (newline (depth + 1) ++ ·))) + 1 =
      linesSize depth (first :: rest) := by
  induction rest generalizing first with
  | nil =>
    simp [byteLength_append, byteLength_newline]
    omega
  | cons second rest ih =>
    have comma : byteLength [','] = 1 := rfl
    rw [linesSize_cons, ← ih second]
    simp only [map_cons, intercalate_cons_cons, byteLength_append, byteLength_newline, comma]
    omega

theorem byteLength_block {opening closing : Char} (opens : opening.utf8Size = 1)
    (closes : closing.utf8Size = 1) (depth : Nat) (members : List Text) :
    byteLength (block opening closing depth members) =
      if members = [] then 2 else linesSize depth members + (2 * depth + 2) := by
  unfold block
  split
  · simp [byteLength, opens, closes]
  · next some =>
    obtain ⟨first, rest, rfl⟩ := exists_cons_of_ne_nil some
    have lines := byteLength_lines depth first rest
    have last : byteLength [closing] = 1 := by simp [byteLength, closes]
    rw [byteLength_append, byteLength_append, byteLength_cons, byteLength_newline]
    omega

theorem byteLength_object (depth : Nat) {members : List Text} (some : members ≠ []) :
    byteLength (block '\x7b' '\x7d' depth members) = linesSize depth members + (2 * depth + 2) := by
  rw [byteLength_block rfl rfl, if_neg some]

theorem byteLength_array (depth : Nat) (members : List Text) :
    byteLength (block '[' ']' depth members) =
      if members = [] then 2 else linesSize depth members + (2 * depth + 2) :=
  byteLength_block rfl rfl depth members

@[simp]
theorem linesSize_optional (depth : Nat) (name : String) (value : Text) :
    linesSize depth (optional name value) =
      if value = [] then 0 else textSize name.toList + textSize value + (2 * depth + 10) := by
  unfold optional
  split
  · rfl
  · rw [linesSize_cons, byteLength_member, byteLength_quoted, linesSize_nil]
    omega

end Indented

/-! ## Records with a checksum -/

/-- What the ledger and the journal have in common.  Checking a record does not
depend on its checksum. -/
structure Format (α : Type) where
  limit : Nat
  tooLarge : String
  missing : String
  invalid : String
  mismatch : String
  /-- The record in the current schema. -/
  stamp : α → α
  checksum : α → Text
  withChecksum : α → Text → α
  validate : α → Option String
  indented : α → Text
  checksum_withChecksum : ∀ value sum, checksum (withChecksum value sum) = sum
  withChecksum_withChecksum : ∀ value sum other,
    withChecksum (withChecksum value sum) other = withChecksum value other
  validate_withChecksum : ∀ value sum, validate (withChecksum value sum) = validate value

namespace Format

variable {α : Type} (format : Format α) (digest : α → Vector UInt8 32)
  (unmarshal : Text → Except String α)

/-- The record as it is written.  `digest` is the SHA-256 of its compact JSON. -/
def sealed (value : α) : α :=
  let plain := format.withChecksum (format.stamp value) []
  format.withChecksum plain (Numeral.encodePairs (digest plain).toList)

def encode (value : α) : Except String Text :=
  match format.validate (format.withChecksum (format.stamp value) []) with
  | some err => .error err
  | none => .ok (format.indented (format.sealed digest value))

def decode (data : Text) : Except String α :=
  if byteLength data > format.limit then .error format.tooLarge
  else
    match unmarshal data with
    | .error err => .error err
    | .ok value =>
      if format.checksum value = [] then .error format.missing
      else
        let want := (digest (format.withChecksum value [])).toList
        match Numeral.decodePairs (format.checksum value) with
        | none => .error format.invalid
        | some got =>
          if got.length ≠ want.length then .error format.invalid
          else if got ≠ want then .error format.mismatch
          else
            match format.validate value with
            | some err => .error err
            | none => .ok value

theorem textSize_checksum (value : α) :
    textSize (format.checksum (format.sealed digest value)) = 64 := by
  rw [sealed, format.checksum_withChecksum, textSize_encodePairs, Vector.length_toList]

variable {format digest unmarshal}

theorem encode_of_valid {value : α}
    (valid : format.validate (format.withChecksum (format.stamp value) []) = none) :
    format.encode digest value = .ok (format.indented (format.sealed digest value)) := by
  rw [encode, valid]

theorem encode_ok {value : α} {encoded : Text}
    (written : format.encode digest value = .ok encoded) :
    format.validate (format.sealed digest value) = none ∧
      encoded = format.indented (format.sealed digest value) := by
  unfold encode at written
  split at written
  · cases written
  next valid =>
  cases written
  rw [sealed, format.validate_withChecksum]
  exact ⟨valid, rfl⟩

/-- Only the limit can keep a record from being read back. -/
theorem decode_encoded_iff {value : α} {encoded : Text}
    (written : format.encode digest value = .ok encoded)
    (reads : unmarshal encoded = .ok (format.sealed digest value)) :
    format.decode digest unmarshal encoded = .ok (format.sealed digest value) ↔
      byteLength encoded ≤ format.limit := by
  unfold decode
  split
  · next large => exact ⟨nofun, fun small => absurd small (Nat.not_le.mpr large)⟩
  next small =>
  refine ⟨fun _ => Nat.le_of_not_lt small, fun _ => ?_⟩
  have sum : format.checksum (format.sealed digest value) = Numeral.encodePairs
      (digest (format.withChecksum (format.sealed digest value) [])).toList := by
    rw [sealed, format.checksum_withChecksum, format.withChecksum_withChecksum,
      format.withChecksum_withChecksum]
  have present : format.checksum (format.sealed digest value) ≠ [] := by
    intro empty
    have length := congrArg List.length (sum.symm.trans empty)
    simp [Numeral.length_encodePairs] at length
  simp only [reads]
  rw [if_neg present, sum]
  simp [Numeral.decodePairs_encodePairs, (encode_ok written).1]

end Format

/-! ## Endpoint routes -/

def endpointRouteLedgerSchemaVersion : Nat := 1
def maxEndpointRouteLedgerSize : Nat := 2 ^ 20
def maxEndpointRouteLedgerRecords : Nat := 4096

structure EndpointRouteLedgerRecord where
  interface : Text
  address : Text
  gateway : Text := []
  gatewayInterface : Text := []
  state : Text
deriving DecidableEq, Repr

structure EndpointRouteLedger where
  schemaVersion : Nat := 0
  generation : Nat := 0
  records : List EndpointRouteLedgerRecord := []
  checksum : Text := []
deriving DecidableEq, Repr

def endpointRoutePendingAdd : Text := "pending-add".toList
def endpointRouteActive : Text := "active".toList
def endpointRoutePendingDelete : Text := "pending-delete".toList

def endpointRouteStates : List Text :=
  [endpointRoutePendingAdd, endpointRouteActive, endpointRoutePendingDelete]

def EndpointRouteLedgerRecord.key (record : EndpointRouteLedgerRecord) : Text :=
  record.interface ++ Char.ofNat 0 :: record.address

def EndpointRouteLedgerRecord.fault (record : EndpointRouteLedgerRecord) : Option String :=
  if record.interface = [] ∨ byteLength record.interface > 128 then some "has an invalid interface"
  else if (parseAddr record.address).all fun address =>
      isUnspecified address ∨ address ≠ address.unmap then
    some "has an invalid address"
  else if (record.gateway = []) = (record.gatewayInterface = []) then
    some "must have exactly one gateway identity"
  else if record.gateway ≠ [] ∧ (parseAddr record.gateway).all isUnspecified then
    some "has an invalid gateway"
  else if record.state ∉ endpointRouteStates then some "has an invalid state"
  else none

/-- The loop over the records, with the keys that have been seen. -/
def checkEndpointRoutes : Nat → List Text → List EndpointRouteLedgerRecord → Option String
  | _, _, [] => none
  | number, seen, record :: rest =>
    match record.fault with
    | some fault => some ("endpoint route record " ++ toString number ++ " " ++ fault)
    | none =>
      if record.key ∈ seen then
        some ("endpoint route record " ++ toString number ++ " is duplicated")
      else checkEndpointRoutes (number + 1) (record.key :: seen) rest

def validateEndpointRouteLedger (ledger : EndpointRouteLedger) : Option String :=
  if ledger.schemaVersion ≠ endpointRouteLedgerSchemaVersion then
    some ("unsupported endpoint route ledger schema " ++ toString ledger.schemaVersion)
  else if ledger.records.length > maxEndpointRouteLedgerRecords then
    some "endpoint route ledger has too many records"
  else checkEndpointRoutes 1 [] ledger.records

/-- What `validateEndpointRouteLedger` asks of a record. -/
structure EndpointRouteLedgerRecord.Sound (record : EndpointRouteLedgerRecord) : Prop where
  named : record.interface ≠ []
  short : byteLength record.interface ≤ 128
  address : ∃ address, parseAddr record.address = some address ∧ isUnspecified address = false ∧
    address.unmap = address
  identity : record.gateway = [] ↔ record.gatewayInterface ≠ []
  gateway : record.gateway ≠ [] →
    ∃ gateway, parseAddr record.gateway = some gateway ∧ isUnspecified gateway = false
  state : record.state ∈ endpointRouteStates

structure SoundRecords (records : List EndpointRouteLedgerRecord) : Prop where
  few : records.length ≤ maxEndpointRouteLedgerRecords
  sound : ∀ record ∈ records, record.Sound
  keys : (records.map EndpointRouteLedgerRecord.key).Nodup

section Validation

open List

variable {record : EndpointRouteLedgerRecord} {records : List EndpointRouteLedgerRecord}

theorem fault_eq_none : record.fault = none ↔ record.Sound := by
  unfold EndpointRouteLedgerRecord.fault
  constructor
  · intro accepted
    split at accepted
    · cases accepted
    next name =>
    split at accepted
    · cases accepted
    next address =>
    split at accepted
    · cases accepted
    next identity =>
    split at accepted
    · cases accepted
    next gateway =>
    split at accepted
    · cases accepted
    next state =>
    rw [not_or, not_lt] at name
    refine ⟨name.1, name.2, ?_, ?_, ?_, not_not.mp state⟩
    · cases parsed : parseAddr record.address with
      | none => simp [parsed] at address
      | some value =>
        rw [parsed] at address
        simp only [Option.all_some, decide_eq_true_eq, not_or, not_not, Bool.not_eq_true] at address
        exact ⟨value, rfl, address.1, address.2.symm⟩
    · tauto
    · intro filled
      cases parsed : parseAddr record.gateway with
      | none => simp [parsed, filled] at gateway
      | some value => exact ⟨value, rfl, by simpa [parsed, filled] using gateway⟩
  · rintro ⟨named, short, ⟨address, written, specified, unmapped⟩, identity, gateway, state⟩
    rw [if_neg (not_or.mpr ⟨named, Nat.not_lt.mpr short⟩), if_neg, if_neg, if_neg,
      if_neg (not_not.mpr state)]
    · rintro ⟨filled, unreadable⟩
      obtain ⟨value, parsed, known⟩ := gateway filled
      simp [parsed, known] at unreadable
    · tauto
    · simp [written, specified, unmapped]

theorem checkEndpointRoutes_eq_none {number : Nat} {seen : List Text} :
    checkEndpointRoutes number seen records = none ↔ (∀ record ∈ records, record.Sound) ∧
        (records.map EndpointRouteLedgerRecord.key).Nodup ∧
        ∀ record ∈ records, record.key ∉ seen := by
  induction records generalizing number seen with
  | nil => simp [checkEndpointRoutes]
  | cons record rest ih =>
    rw [checkEndpointRoutes]
    cases checked : record.fault with
    | some fault =>
      refine ⟨nofun, fun accepted => ?_⟩
      cases checked.symm.trans (fault_eq_none.mpr (accepted.1 record mem_cons_self))
    | none =>
      have sound := fault_eq_none.mp checked
      by_cases earlier : record.key ∈ seen
      · rw [if_pos earlier]
        exact ⟨nofun, fun accepted => absurd earlier (accepted.2.2 record mem_cons_self)⟩
      · rw [if_neg earlier, ih, map_cons, nodup_cons, forall_mem_cons, forall_mem_cons]
        constructor
        · rintro ⟨others, nodup, fresh⟩
          refine ⟨⟨sound, others⟩, ⟨fun twice => ?_, nodup⟩, earlier,
            fun other member known => fresh other member (mem_cons_of_mem _ known)⟩
          obtain ⟨other, member, same⟩ := mem_map.mp twice
          exact fresh other member (same ▸ mem_cons_self)
        · rintro ⟨⟨-, others⟩, ⟨once, nodup⟩, -, fresh⟩
          refine ⟨others, nodup, fun other member known => ?_⟩
          rcases mem_cons.mp known with same | known
          · exact once (mem_map.mpr ⟨other, member, same⟩)
          · exact fresh other member known

theorem validateEndpointRouteLedger_eq_none {ledger : EndpointRouteLedger} :
    validateEndpointRouteLedger ledger = none ↔
      ledger.schemaVersion = endpointRouteLedgerSchemaVersion ∧ SoundRecords ledger.records := by
  unfold validateEndpointRouteLedger
  split
  · next other => exact ⟨nofun, fun sound => absurd sound.1 other⟩
  next version =>
  split
  · next many => exact ⟨nofun, fun sound => absurd many (Nat.not_lt.mpr sound.2.few)⟩
  next few =>
  rw [checkEndpointRoutes_eq_none]
  constructor
  · rintro ⟨sound, keys, -⟩
    exact ⟨not_not.mp version, Nat.not_lt.mp few, sound, keys⟩
  · rintro ⟨-, -, sound, keys⟩
    exact ⟨sound, keys, fun _ _ => not_mem_nil⟩

theorem SoundRecords.setState {before after : List EndpointRouteLedgerRecord} {state : Text}
    (sound : SoundRecords (before ++ record :: after)) (known : state ∈ endpointRouteStates) :
    SoundRecords (before ++ { record with state } :: after) where
  few := by
    have few := sound.few
    rw [length_append] at few ⊢
    exact few
  sound := by
    have each := sound.sound
    rw [forall_mem_append, forall_mem_cons] at each ⊢
    obtain ⟨earlier, ⟨named, short, address, identity, gateway, _⟩, later⟩ := each
    exact ⟨earlier, ⟨named, short, address, identity, gateway, known⟩, later⟩
  keys := by
    have keys := sound.keys
    rw [map_append] at keys ⊢
    exact keys

theorem SoundRecords.sublist {others : List EndpointRouteLedgerRecord}
    (sound : SoundRecords records) (part : others.Sublist records) : SoundRecords others where
  few := part.length_le.trans sound.few
  sound := fun record member => sound.sound record (part.subset member)
  keys := sound.keys.sublist (part.map _)

end Validation

def EndpointRouteLedgerRecord.indented (record : EndpointRouteLedgerRecord) : Text :=
  block '\x7b' '\x7d' 2 ([member "interface" (quoted record.interface),
      member "address" (quoted record.address)] ++ optional "gateway" record.gateway ++
    optional "gateway_interface" record.gatewayInterface ++ [member "state" (quoted record.state)])

def EndpointRouteLedger.indented (ledger : EndpointRouteLedger) : Text :=
  let records := if ledger.records = [] then []
    else [member "records" (block '[' ']' 1
      (ledger.records.map EndpointRouteLedgerRecord.indented))]
  block '\x7b' '\x7d' 0 ([member "schema_version" (decimal ledger.schemaVersion),
    member "generation" (decimal ledger.generation)] ++ records ++
    [member "checksum" (quoted ledger.checksum)])

def EndpointRouteLedgerRecord.size (record : EndpointRouteLedgerRecord) : Nat :=
  69 + textSize record.interface + textSize record.address + textSize record.state +
    (if record.gateway = [] then 0 else 21 + textSize record.gateway) +
    if record.gatewayInterface = [] then 0 else 31 + textSize record.gatewayInterface

def EndpointRouteLedger.size (ledger : EndpointRouteLedger) : Nat :=
  125 + (decimal ledger.generation).length +
    if ledger.records = [] then 0 else 19 + (ledger.records.map fun record => record.size + 6).sum

theorem EndpointRouteLedgerRecord.byteLength_indented (record : EndpointRouteLedgerRecord) :
    byteLength record.indented = record.size := by
  have names : textSize "interface".toList = 9 ∧ textSize "address".toList = 7 ∧
      textSize "gateway".toList = 7 ∧ textSize "gateway_interface".toList = 17 ∧
      textSize "state".toList = 5 := by decide
  rw [indented, byteLength_object 2 (by simp), size]
  simp only [linesSize_append, linesSize_cons, linesSize_nil, linesSize_optional,
    byteLength_member, byteLength_quoted, names]
  split <;> split <;> omega

theorem EndpointRouteLedger.byteLength_indented {ledger : EndpointRouteLedger}
    (schema : ledger.schemaVersion = endpointRouteLedgerSchemaVersion)
    (sum : textSize ledger.checksum = 64) : byteLength ledger.indented = ledger.size := by
  have names : textSize "schema_version".toList = 14 ∧ textSize "generation".toList = 10 ∧
      textSize "records".toList = 7 ∧ textSize "checksum".toList = 8 := by decide
  have version : (decimal endpointRouteLedgerSchemaVersion).length = 1 := rfl
  have records : linesSize 1 (ledger.records.map EndpointRouteLedgerRecord.indented) =
      (ledger.records.map fun record => record.size + 6).sum := by
    rw [linesSize, List.map_map]
    refine congrArg List.sum (List.map_congr_left fun record _ => ?_)
    exact congrArg (· + 6) record.byteLength_indented
  rw [indented, byteLength_object 0 (by simp), size]
  simp only [linesSize_append, linesSize_cons, linesSize_nil, byteLength_member, byteLength_quoted,
    byteLength_decimal, names, schema, version, sum]
  split
  · rw [linesSize_nil]
    omega
  · next some =>
    rw [linesSize_cons, linesSize_nil, byteLength_member, byteLength_array,
      if_neg (by simpa using some)]
    omega

def endpointRouteLedgerFormat : Format EndpointRouteLedger where
  limit := maxEndpointRouteLedgerSize
  tooLarge := "endpoint route ledger is too large"
  missing := "endpoint route ledger checksum is missing"
  invalid := "endpoint route ledger checksum is invalid"
  mismatch := "endpoint route ledger checksum mismatch"
  stamp ledger := { ledger with schemaVersion := endpointRouteLedgerSchemaVersion }
  checksum := EndpointRouteLedger.checksum
  withChecksum ledger checksum := { ledger with checksum }
  validate := validateEndpointRouteLedger
  indented := EndpointRouteLedger.indented
  checksum_withChecksum _ _ := rfl
  withChecksum_withChecksum _ _ _ := rfl
  validate_withChecksum _ _ := rfl

def encodeEndpointRouteLedger (digest : EndpointRouteLedger → Vector UInt8 32) :
    EndpointRouteLedger → Except String Text :=
  endpointRouteLedgerFormat.encode digest

def decodeEndpointRouteLedger (digest : EndpointRouteLedger → Vector UInt8 32)
    (unmarshal : Text → Except String EndpointRouteLedger) :
    Text → Except String EndpointRouteLedger :=
  endpointRouteLedgerFormat.decode digest unmarshal

/-! ## Peer routes -/

def peerRouteJournalSchemaVersion : Nat := 1
def maxPeerRouteJournalSize : Nat := 4 * 2 ^ 20
def maxPeerRouteJournalPrefixes : Nat := 2 ^ 16

def peerRouteJournalActive : Text := "active".toList

def peerRouteJournalPhases : List Text :=
  ["prepared".toList, "removing".toList, "removed".toList, "adding".toList, "committed".toList,
    "rollback-additions".toList, "rollback-removals".toList, peerRouteJournalActive]

structure PeerRouteJournal where
  schemaVersion : Nat := 0
  generation : Nat := 0
  tunnel : Text
  transactionID : Text := []
  interfaceLUID : Nat
  compartmentID : Nat
  phase : Text
  before : List Text := []
  after : List Text := []
  removalsApplied : Bool := false
  additionsApplied : Bool := false
  checksum : Text := []

/-- `validatePeerRouteJournalPrefixes`, with the prefix before and those that have been seen. -/
def checkJournalPrefixes (field : String) :
    Nat → List Prefix → Option Prefix → List Text → Option String
  | _, _, _, [] => none
  | number, seen, previous, value :: rest =>
    match (parsePrefix value).filter fun found => found = found.masked with
    | none => some ("peer route journal " ++ field ++ " prefix " ++ toString number ++
        " is invalid")
    | some found =>
      if found ∈ seen then
        some ("peer route journal " ++ field ++ " prefix " ++ String.ofList found.text ++
          " is duplicated")
      else if previous.any fun previous => previous.compare found ≠ .lt then
        some ("peer route journal " ++ field ++ " prefixes are not canonical")
      else checkJournalPrefixes field (number + 1) (found :: seen) (some found) rest

def validatePeerRouteJournal (journal : PeerRouteJournal) : Option String :=
  if journal.schemaVersion ≠ peerRouteJournalSchemaVersion then
    some ("unsupported peer route journal schema " ++ toString journal.schemaVersion)
  else if journal.tunnel = [] ∨ byteLength journal.tunnel > 128 then
    some "peer route journal has an invalid tunnel"
  else if journal.interfaceLUID = 0 ∨ journal.compartmentID = 0 then
    some "peer route journal has an empty Windows route identity"
  else if journal.phase ∉ peerRouteJournalPhases then
    some ("peer route journal has invalid phase " ++ String.quote (String.ofList journal.phase))
  else if journal.phase = peerRouteJournalActive ∧ journal.transactionID ≠ [] then
    some "active peer route journal retains a transaction ID"
  else if journal.phase ≠ peerRouteJournalActive ∧ journal.transactionID = [] then
    some "transactional peer route journal has no transaction ID"
  else if journal.before.length + journal.after.length > maxPeerRouteJournalPrefixes then
    some "peer route journal has too many prefixes"
  else
    match checkJournalPrefixes "before" 1 [] none journal.before with
    | some err => some err
    | none =>
      match checkJournalPrefixes "after" 1 [] none journal.after with
      | some err => some err
      | none =>
        if journal.additionsApplied ∧ !journal.removalsApplied then
          some "peer route additions were applied before removals"
        else none

/-- A flag that is left out when it is false. -/
def flag (name : String) (value : Bool) : List Text :=
  if value then [member name "true".toList] else []

def PeerRouteJournal.indented (journal : PeerRouteJournal) : Text :=
  block '\x7b' '\x7d' 0 ([member "schema_version" (decimal journal.schemaVersion),
      member "generation" (decimal journal.generation), member "tunnel" (quoted journal.tunnel)] ++
    optional "transaction_id" journal.transactionID ++
    [member "interface_luid" (decimal journal.interfaceLUID),
      member "compartment_id" (decimal journal.compartmentID),
      member "phase" (quoted journal.phase),
      member "before" (block '[' ']' 1 (journal.before.map quoted)),
      member "after" (block '[' ']' 1 (journal.after.map quoted))] ++
    flag "removals_applied" journal.removalsApplied ++
    flag "additions_applied" journal.additionsApplied ++
    [member "checksum" (quoted journal.checksum)])

def prefixesSize (prefixes : List Text) : Nat :=
  if prefixes = [] then 2 else 4 + (prefixes.map fun value => textSize value + 8).sum

def PeerRouteJournal.size (journal : PeerRouteJournal) : Nat :=
  227 + (decimal journal.generation).length + textSize journal.tunnel +
    (if journal.transactionID = [] then 0 else 24 + textSize journal.transactionID) +
    (decimal journal.interfaceLUID).length + (decimal journal.compartmentID).length +
    textSize journal.phase + prefixesSize journal.before + prefixesSize journal.after +
    (if journal.removalsApplied then 28 else 0) + if journal.additionsApplied then 29 else 0

theorem byteLength_prefixes (prefixes : List Text) :
    byteLength (block '[' ']' 1 (prefixes.map quoted)) = prefixesSize prefixes := by
  rw [byteLength_array, prefixesSize]
  by_cases none : prefixes = []
  · simp [none]
  · rw [if_neg (by simpa using none), if_neg none, linesSize, List.map_map, Nat.add_comm]
    refine congrArg (fun sizes : List Nat => 4 + sizes.sum) (List.map_congr_left fun value _ => ?_)
    exact congrArg (· + 6) (byteLength_quoted value)

@[simp]
theorem linesSize_flag (depth : Nat) (name : String) (value : Bool) :
    linesSize depth (flag name value) =
      if value then textSize name.toList + (2 * depth + 12) else 0 := by
  unfold flag
  split
  · rw [linesSize_cons, byteLength_member, linesSize_nil]
    have text : byteLength "true".toList = 4 := by decide
    omega
  · rfl

theorem PeerRouteJournal.byteLength_indented {journal : PeerRouteJournal}
    (schema : journal.schemaVersion = peerRouteJournalSchemaVersion)
    (sum : textSize journal.checksum = 64) : byteLength journal.indented = journal.size := by
  have names : textSize "schema_version".toList = 14 ∧ textSize "generation".toList = 10 ∧
      textSize "tunnel".toList = 6 ∧ textSize "transaction_id".toList = 14 ∧
      textSize "interface_luid".toList = 14 ∧ textSize "compartment_id".toList = 14 ∧
      textSize "phase".toList = 5 ∧ textSize "before".toList = 6 ∧ textSize "after".toList = 5 ∧
      textSize "removals_applied".toList = 16 ∧ textSize "additions_applied".toList = 17 ∧
      textSize "checksum".toList = 8 := by decide
  have version : (decimal peerRouteJournalSchemaVersion).length = 1 := rfl
  rw [indented, byteLength_object 0 (by simp), size]
  simp only [linesSize_append, linesSize_cons, linesSize_nil, linesSize_optional, linesSize_flag,
    byteLength_member, byteLength_quoted, byteLength_decimal, byteLength_prefixes, names, schema,
    version, sum]
  split <;> split <;> split <;> omega

def peerRouteJournalFormat : Format PeerRouteJournal where
  limit := maxPeerRouteJournalSize
  tooLarge := "peer route journal is too large"
  missing := "peer route journal checksum is missing"
  invalid := "peer route journal checksum mismatch"
  mismatch := "peer route journal checksum mismatch"
  stamp journal := { journal with schemaVersion := peerRouteJournalSchemaVersion }
  checksum := PeerRouteJournal.checksum
  withChecksum journal checksum := { journal with checksum }
  validate := validatePeerRouteJournal
  indented := PeerRouteJournal.indented
  checksum_withChecksum _ _ := rfl
  withChecksum_withChecksum _ _ _ := rfl
  validate_withChecksum _ _ := rfl

def encodePeerRouteJournal (digest : PeerRouteJournal → Vector UInt8 32) :
    PeerRouteJournal → Except String Text :=
  peerRouteJournalFormat.encode digest

def decodePeerRouteJournal (digest : PeerRouteJournal → Vector UInt8 32)
    (unmarshal : Text → Except String PeerRouteJournal) :
    Text → Except String PeerRouteJournal :=
  peerRouteJournalFormat.decode digest unmarshal

/-! ## What is read back -/

theorem byteLength_encodedLedger {digest : EndpointRouteLedger → Vector UInt8 32}
    {ledger : EndpointRouteLedger} {encoded : Text}
    (written : encodeEndpointRouteLedger digest ledger = .ok encoded) :
    byteLength encoded = ledger.size := by
  rw [(Format.encode_ok written).2]
  exact EndpointRouteLedger.byteLength_indented rfl
    (endpointRouteLedgerFormat.textSize_checksum digest ledger)

theorem byteLength_encodedJournal {digest : PeerRouteJournal → Vector UInt8 32}
    {journal : PeerRouteJournal} {encoded : Text}
    (written : encodePeerRouteJournal digest journal = .ok encoded) :
    byteLength encoded = journal.size := by
  rw [(Format.encode_ok written).2]
  exact PeerRouteJournal.byteLength_indented rfl
    (peerRouteJournalFormat.textSize_checksum digest journal)

def routeThrough (gatewayInterface : Text) : EndpointRouteLedgerRecord :=
  { interface := "wg0".toList, address := "192.0.2.1".toList, gatewayInterface
    state := endpointRouteActive }

/-- A ledger with one route over the named interface. -/
def ledgerThrough (gatewayInterface : Text) : EndpointRouteLedger :=
  { records := [routeThrough gatewayInterface] }

section Through

variable {gatewayInterface : Text} (named : gatewayInterface ≠ [])

include named

theorem sound_ledgerThrough : SoundRecords (ledgerThrough gatewayInterface).records where
  few := (by decide : 1 ≤ maxEndpointRouteLedgerRecords)
  sound := by
    refine List.forall_mem_singleton.mpr ⟨?_, ?_, ⟨.v4 0xc0000201, ?_, rfl, rfl⟩, ?_, ?_, ?_⟩
    · exact (by decide : "wg0".toList ≠ [])
    · exact (by decide : byteLength "wg0".toList ≤ 128)
    · exact (by decide +kernel : parseAddr "192.0.2.1".toList = some (.v4 0xc0000201))
    · exact ⟨fun _ => named, fun _ => rfl⟩
    · exact fun filled => absurd rfl filled
    · exact (by decide : endpointRouteActive ∈ endpointRouteStates)
  keys := List.nodup_singleton _

theorem textSize_lt_ledgerThrough :
    textSize gatewayInterface < (ledgerThrough gatewayInterface).size := by
  simp only [ledgerThrough, routeThrough, EndpointRouteLedger.size, EndpointRouteLedgerRecord.size,
    named, List.map_cons, List.sum_cons, if_false, reduceCtorEq]
  omega

theorem encode_ledgerThrough (digest : EndpointRouteLedger → Vector UInt8 32) :
    encodeEndpointRouteLedger digest (ledgerThrough gatewayInterface) =
      .ok (endpointRouteLedgerFormat.sealed digest (ledgerThrough gatewayInterface)).indented := by
  have valid : validateEndpointRouteLedger { ledgerThrough gatewayInterface with
      schemaVersion := endpointRouteLedgerSchemaVersion, checksum := [] } = none :=
    validateEndpointRouteLedger_eq_none.mpr ⟨rfl, sound_ledgerThrough named⟩
  exact Format.encode_of_valid valid

end Through

/-- A ledger is written that no reader accepts. -/
theorem written_ledger_refused :
    (ledgerThrough (List.replicate (maxEndpointRouteLedgerSize + 1) 'a')).records.length = 1 ∧
    ∀ (digest : EndpointRouteLedger → Vector UInt8 32)
      (unmarshal : Text → Except String EndpointRouteLedger),
    ∃ encoded, encodeEndpointRouteLedger digest
        (ledgerThrough (List.replicate (maxEndpointRouteLedgerSize + 1) 'a')) = .ok encoded ∧
      decodeEndpointRouteLedger digest unmarshal encoded =
        .error "endpoint route ledger is too large" := by
  refine ⟨rfl, fun digest unmarshal => ?_⟩
  have named : List.replicate (maxEndpointRouteLedgerSize + 1) 'a' ≠ [] := by
    nofun
  have name : textSize (List.replicate (maxEndpointRouteLedgerSize + 1) 'a') =
      maxEndpointRouteLedgerSize + 1 := by
    rw [textSize, List.map_replicate, List.sum_replicate_nat]
    exact Nat.mul_one _
  have written := encode_ledgerThrough named digest
  have large := textSize_lt_ledgerThrough named
  rw [← byteLength_encodedLedger written, name] at large
  refine ⟨_, written, ?_⟩
  unfold decodeEndpointRouteLedger Format.decode
  exact if_pos (Nat.lt_of_succ_lt large)

/-- A ledger or a journal that was written is read back exactly if its texts are not too long. -/
theorem route_state_reloads_iff (digest : EndpointRouteLedger → Vector UInt8 32)
    (unmarshal : Text → Except String EndpointRouteLedger)
    (journalDigest : PeerRouteJournal → Vector UInt8 32)
    (journalUnmarshal : Text → Except String PeerRouteJournal)
    (ledger : EndpointRouteLedger) (journal : PeerRouteJournal) (encoded journalEncoded : Text)
    (written : encodeEndpointRouteLedger digest ledger = .ok encoded)
    (journalWritten : encodePeerRouteJournal journalDigest journal = .ok journalEncoded)
    (reads : unmarshal encoded = .ok (endpointRouteLedgerFormat.sealed digest ledger))
    (journalReads : journalUnmarshal journalEncoded =
      .ok (peerRouteJournalFormat.sealed journalDigest journal)) :
    (byteLength encoded = ledger.size ∧ (decodeEndpointRouteLedger digest unmarshal encoded =
          .ok (endpointRouteLedgerFormat.sealed digest ledger) ↔
        ledger.size ≤ maxEndpointRouteLedgerSize)) ∧
    byteLength journalEncoded = journal.size ∧
      (decodePeerRouteJournal journalDigest journalUnmarshal journalEncoded =
          .ok (peerRouteJournalFormat.sealed journalDigest journal) ↔
        journal.size ≤ maxPeerRouteJournalSize) := by
  have size := byteLength_encodedLedger written
  have journalSize := byteLength_encodedJournal journalWritten
  refine ⟨⟨size, ?_⟩, journalSize, ?_⟩
  · rw [← size]
    exact Format.decode_encoded_iff written reads
  · rw [← journalSize]
    exact Format.decode_encoded_iff journalWritten journalReads

def sampleJournal : PeerRouteJournal :=
  { tunnel := "home".toList, transactionID := "tx".toList, interfaceLUID := 1, compartmentID := 1
    phase := "removed".toList, before := ["10.0.0.0/8".toList]
    after := ["10.0.0.0/8".toList, "2001:db8::/32".toList], removalsApplied := true }

def noDigest {α : Type} (_ : α) : Vector UInt8 32 := Vector.replicate 32 0

/-- A reader that knows one text. -/
def reads {α : Type} (written : Text) (value : α) (text : Text) : Except String α :=
  if text = written then .ok value else .error "unexpected end of JSON input"

theorem reads_own {α : Type} (written : Text) (value : α) :
    reads written value written = .ok value :=
  if_pos rfl

theorem route_state_reloads_once : ∃ encoded journalEncoded,
      encodeEndpointRouteLedger noDigest (ledgerThrough "eth0".toList) = .ok encoded ∧
      encodePeerRouteJournal noDigest sampleJournal = .ok journalEncoded ∧
      decodeEndpointRouteLedger noDigest
        (reads encoded (endpointRouteLedgerFormat.sealed noDigest (ledgerThrough "eth0".toList)))
          encoded = .ok (endpointRouteLedgerFormat.sealed noDigest (ledgerThrough "eth0".toList)) ∧
      decodePeerRouteJournal noDigest
        (reads journalEncoded (peerRouteJournalFormat.sealed noDigest sampleJournal))
          journalEncoded = .ok (peerRouteJournalFormat.sealed noDigest sampleJournal) := by
  have written := encode_ledgerThrough (show "eth0".toList ≠ [] by decide) noDigest
  have journalWritten : encodePeerRouteJournal noDigest sampleJournal = .ok _ :=
    Format.encode_of_valid (by decide +kernel)
  have both := route_state_reloads_iff noDigest _ noDigest _ _ _ _ _ written journalWritten
    (reads_own _ _) (reads_own _ _)
  exact ⟨_, _, written, journalWritten, both.1.2.mpr (by decide +kernel),
    both.2.2.mpr (by decide +kernel)⟩

end WgQuic.Platform
