import WgQuic.Reconcile.Canonical

/-!
# Canonical texts

Keys, host names, endpoints, DNS entries and tables are canonical once they have
been canonicalized, with one exception: a host name may turn out to be a numeric
address, and the unspecified address is refused as an endpoint.
-/

namespace WgQuic.Canonical

open List Net WgQuic.Configuration Strings PeerEndpoint

section Keys

variable {value canonical : Text}

theorem canonicalKey_ok (found : canonicalKey value = .ok canonical) :
    canonical = value ∧ ∃ bytes, decodeString value = some bytes ∧ Base64.encode bytes = value := by
  unfold canonicalKey at found
  split at found
  · cases found
  next bytes decoded =>
  split at found
  · cases found
  split at found
  · cases found
  next same =>
  cases found
  have whole : value = Base64.encode bytes := not_not.mp same
  exact ⟨whole.symm, bytes, decoded, whole.symm⟩

theorem canonicalKey_self (found : canonicalKey value = .ok canonical) :
    canonicalKey canonical = .ok canonical := by
  obtain ⟨rfl, -⟩ := canonicalKey_ok found
  exact found

/-- Canonical keys with the same bytes are the same text. -/
theorem eq_of_keyBytes {other : Text} (left : canonicalKey value = .ok value)
    (right : canonicalKey other = .ok other) (same : keyBytes value = keyBytes other) :
    value = other := by
  obtain ⟨-, leftBytes, leftDecoded, leftText⟩ := canonicalKey_ok left
  obtain ⟨-, rightBytes, rightDecoded, rightText⟩ := canonicalKey_ok right
  rw [keyBytes, keyBytes, leftDecoded, rightDecoded] at same
  have bytes : leftBytes = rightBytes := map_injective_iff.mpr (fun _ _ => UInt8.toNat.inj) same
  rw [← leftText, ← rightText, bytes]

end Keys

/-! ## Host names -/

/-- A symbol of a canonical host name. -/
def isHostSymbol (symbol : Char) : Bool :=
  isLabelSymbol symbol || symbol == '.'

section Symbols

variable {symbol : Char}

theorem code_of_isHostSymbol (known : isHostSymbol symbol = true) :
    (97 ≤ symbol.toNat ∧ symbol.toNat ≤ 122) ∨ (48 ≤ symbol.toNat ∧ symbol.toNat ≤ 57) ∨
      symbol = '-' ∨ symbol = '.' := by
  simp only [isHostSymbol, isLabelSymbol, Bool.or_eq_true, Bool.and_eq_true, decide_eq_true_eq,
    beq_iff_eq] at known
  rcases known with ((letter | digit) | hyphen) | dot
  · exact .inl letter
  · exact .inr (.inl digit)
  · exact .inr (.inr (.inl hyphen))
  · exact .inr (.inr (.inr dot))

theorem isSpace_of_isHostSymbol (known : isHostSymbol symbol = true) : isSpace symbol = false := by
  rw [Bool.eq_false_iff]
  intro space
  simp only [isSpace, Bool.or_eq_true, Bool.and_eq_true, decide_eq_true_eq, beq_iff_eq] at space
  rcases code_of_isHostSymbol known with letter | digit | rfl | rfl
  · omega
  · omega
  · exact absurd space (by decide)
  · exact absurd space (by decide)

theorem lower_of_isHostSymbol (letters : Strings.LowerCase) (known : isHostSymbol symbol = true) :
    letters.lower symbol = symbol := by
  have plain : symbol.toNat < 128 ∧ ¬(65 ≤ symbol.toNat ∧ symbol.toNat ≤ 90) := by
    rcases code_of_isHostSymbol known with letter | digit | rfl | rfl
    · omega
    · omega
    · decide
    · decide
  rw [letters.ascii symbol plain.1, toLower_of_not_upper plain.2]

end Symbols

section Hostnames

variable {letters : Strings.LowerCase} {value host : Text}

/-- What is known of a canonical host name. -/
structure IsHostname (host : Text) : Prop where
  filled : host ≠ []
  length : byteLength host ≤ 253
  labels : checkLabels (host.splitOn '.') = .ok ()

theorem checkLabels_ok {labels : List Text} (checked : checkLabels labels = .ok ()) :
    ∀ label ∈ labels, label ≠ [] ∧ label.all isLabelSymbol = true := by
  induction labels with
  | nil => exact fun _ => nofun
  | cons first rest ih =>
    rw [checkLabels] at checked
    split at checked
    · cases checked
    next accepted =>
    unfold checkLabel at accepted
    split at accepted
    · cases accepted
    next sized =>
    split at accepted
    · cases accepted
    split at accepted
    · next symbols =>
      intro label member
      rcases mem_cons.mp member with rfl | later
      · exact ⟨fun empty => sized (.inl empty), symbols⟩
      · exact ih checked label later
    · cases accepted

theorem canonicalHostname_ok (found : canonicalHostname letters value = .ok host) :
    host = letters.text (Strings.trimSuffix ['.'] (Strings.trimSpace value)) ∧ IsHostname host := by
  unfold canonicalHostname at found
  dsimp only at found
  split at found
  · cases found
  next sized =>
  split at found
  · cases found
  next labels =>
  cases found
  rw [not_or, not_lt] at sized
  exact ⟨rfl, sized.1, sized.2, labels⟩

/-- A symbol other than the dots stands in a label. -/
theorem mem_label {symbol : Char} (member : symbol ∈ host) (other : symbol ≠ '.') :
    ∃ label ∈ host.splitOn '.', symbol ∈ label := by
  induction host with
  | nil => cases member
  | cons first rest ih =>
    rw [splitOn_cons_eq_if_modifyHead]
    split
    · next dot =>
      rcases mem_cons.mp member with rfl | later
      · exact absurd (eq_of_beq dot) other
      · obtain ⟨label, listed, inside⟩ := ih later
        exact ⟨label, mem_cons_of_mem _ listed, inside⟩
    · obtain ⟨label, labels, split⟩ := exists_cons_of_ne_nil (splitOn_ne_nil '.' rest)
      rw [split] at ih ⊢
      rcases mem_cons.mp member with rfl | later
      · exact ⟨_, mem_cons_self, mem_cons_self⟩
      · obtain ⟨found, listed, inside⟩ := ih later
        rcases mem_cons.mp listed with rfl | listed
        · exact ⟨_, mem_cons_self, mem_cons_of_mem _ inside⟩
        · exact ⟨found, mem_cons_of_mem _ listed, inside⟩

namespace IsHostname

theorem symbols (name : IsHostname host) : ∀ symbol ∈ host, isHostSymbol symbol = true := by
  intro symbol member
  by_cases dot : symbol = '.'
  · rw [dot]
    rfl
  · obtain ⟨label, listed, inside⟩ := mem_label member dot
    have known := all_eq_true.mp (checkLabels_ok name.labels label listed).2 symbol inside
    rw [isHostSymbol, known]
    rfl

theorem last (name : IsHostname host) : host.getLast? ≠ some '.' := by
  intro dot
  obtain ⟨front, rfl⟩ := getLast?_eq_some_iff.mp dot
  have empty : ([] : Text) ∈ (front ++ ['.']).splitOn '.' := by
    rw [splitOn_append_cons_self]
    exact mem_append_right _ (by simp)
  exact (checkLabels_ok name.labels [] empty).1 rfl

theorem trimmed (name : IsHostname host) : Strings.Trimmed host :=
  trimmed_of_forall fun symbol member =>
    isSpace_of_isHostSymbol (name.symbols symbol member)

/-- A canonical host name stays what it is. -/
theorem canonical (letters : Strings.LowerCase) (name : IsHostname host) :
    canonicalHostname letters host = .ok host := by
  have undotted : trimSuffix ['.'] host = host := by
    refine if_neg fun ends => name.last ?_
    obtain ⟨front, rfl⟩ := isSuffixOf_iff_suffix.mp ends
    simp
  have lowered : letters.text host = host := by
    calc host.map letters.lower = host.map id := map_congr_left fun symbol member =>
            lower_of_isHostSymbol letters (name.symbols symbol member)
      _ = host := map_id host
  rw [canonicalHostname, name.trimmed.trimSpace, undotted, lowered]
  simp only [name.filled, Nat.not_lt.mpr name.length, or_self, if_false, name.labels]

theorem not_mem (name : IsHostname host) {symbol : Char} (other : isHostSymbol symbol = false) :
    symbol ∉ host := by
  intro member
  rw [name.symbols symbol member] at other
  cases other

end IsHostname

end Hostnames

/-! ## Addresses -/

section Addresses

variable {text : Text} {address : Addr} {symbol : Char}

/-- A parsed text ends with the zone of its address. -/
theorem zone_of_parseAddr {bits : BitVec 128} {zone : Text}
    (found : parseAddr text = some (.v6 bits zone)) : ∃ body, text = body ++ zoneText zone := by
  unfold parseAddr at found
  split at found
  · obtain ⟨-, -, ⟨⟩⟩ := Option.map_eq_some_iff.mp found
  · obtain ⟨⟨body, rest⟩, split, found⟩ := Option.bind_eq_some_iff.mp found
    obtain ⟨groups, -, found⟩ := Option.bind_eq_some_iff.mp found
    cases found
    unfold splitZone at split
    split at split
    · cases split
      exact ⟨text, by simp [zoneText]⟩
    · cases split
    next before after filled cut =>
    cases split
    refine ⟨body, ?_⟩
    rw [zoneText, if_neg filled]
    exact (cut_eq_some cut).1
  · cases found

/-- The text of an unmapped address has the symbols of addresses and of the text that
it was read from. -/
theorem symbol_of_unmap (found : parseAddr text = some address)
    (member : symbol ∈ address.unmap.text) : isAddressSymbol symbol = true ∨ symbol ∈ text := by
  cases address with
  | v4 bits => exact .inl (isAddressSymbol_of_text4 member)
  | v6 bits zone =>
    by_cases mapped : bits.extractLsb' 32 96 = 0xffff#96
    · rw [Addr.unmap, if_pos mapped] at member
      exact .inl (isAddressSymbol_of_text4 member)
    · rw [Addr.unmap, if_neg mapped] at member
      obtain ⟨body, rfl⟩ := zone_of_parseAddr found
      rcases mem_append.mp member with inside | inZone
      · exact .inl (isAddressSymbol_of_text6In inside)
      · exact .inr (mem_append_right _ inZone)

theorem unmap_text_ne_nil : address.text ≠ [] := by
  intro empty
  have parsed := parseAddr_text address
  rw [empty] at parsed
  cases parsed

end Addresses

/-! ## Endpoints -/

section Endpoints

open PeerEndpoint (Reads Splits addrPortText joinHostPort specOf parse)

variable {letters : Strings.LowerCase} {value canonical host : Text} {port : Nat}

/-- The endpoint that no second pass accepts. -/
def unspecifiedEndpoint (port : Nat) : Text :=
  "0.0.0.0:".toList ++ decimal port

theorem not_mem_decimal {symbol : Char} {number : Nat}
    (other : Numeral.isDigit 10 symbol = false) : symbol ∉ decimal number := by
  intro member
  rw [isDigit_of_decimal member] at other
  cases other

/-- A host without brackets and blanks, with a port after it. -/
theorem reads_of_splits {text : Text} (splits : Splits text host (decimal port))
    (filled : host ≠ []) (blank : ∀ symbol ∈ host, isBlank symbol = false)
    (positive : port ≠ 0) (small : port < 2 ^ 16) : Reads text host port := by
  refine ⟨⟨decimal port, splits, parseUint_decimal small⟩, filled, ?_, positive⟩
  rw [any_eq_false]
  exact fun symbol member => by simp [blank symbol member]

theorem port_lt (reads : Reads value host port) : port < 2 ^ 16 := by
  obtain ⟨portText, -, read⟩ := reads.split
  exact of_decide_eq_true (Option.filter_eq_some_iff.mp read).2

theorem reads_joined (name : IsHostname host) (positive : port ≠ 0) (small : port < 2 ^ 16) :
    Reads (joinHostPort host (decimal port)) host port := by
  refine reads_of_splits (splits_join (name.not_mem rfl) (name.not_mem rfl)
    (not_mem_decimal rfl) (not_mem_decimal rfl) (not_mem_decimal rfl)) name.filled ?_ positive small
  intro symbol member
  cases blank : isBlank symbol with
  | false => rfl
  | true =>
    have known := name.symbols symbol member
    simp only [isBlank, Bool.or_eq_true, beq_iff_eq] at blank
    rcases blank with ((rfl | rfl) | rfl) | rfl
    all_goals exact absurd known (by decide)

variable {address : Addr}

theorem reads_addrPort (reads : Reads value host port) (found : parseAddr host = some address) :
    Reads (addrPortText address.unmap port) address.unmap.text port := by
  obtain ⟨portText, splits, -⟩ := reads.split
  have outside : ∀ symbol, isAddressSymbol symbol = false → symbol ∉ host →
      symbol ∉ address.unmap.text := by
    intro symbol other absent member
    rcases symbol_of_unmap found member with known | inHost
    · rw [known] at other
      cases other
    · exact absent inHost
  have hostOpen := outside '[' rfl splits.hostOpen
  have hostClose := outside ']' rfl splits.hostClose
  refine reads_of_splits ⟨?_, hostOpen, hostClose, not_mem_decimal rfl, not_mem_decimal rfl,
    not_mem_decimal rfl⟩ unmap_text_ne_nil ?_ reads.positive (port_lt reads)
  · cases unmapped : address.unmap with
    | v4 bits =>
      refine .inr ⟨rfl, fun colon => ?_⟩
      rcases digit_or_dot_of_text4 colon with digit | dot
      · exact absurd digit (by decide)
      · exact absurd dot (by decide)
    | v6 bits zone => exact .inl rfl
  · intro symbol member
    rcases symbol_of_unmap found member with known | inHost
    · cases blank : isBlank symbol with
      | false => rfl
      | true =>
        simp only [isBlank, Bool.or_eq_true, beq_iff_eq] at blank
        rcases blank with ((rfl | rfl) | rfl) | rfl
        all_goals exact absurd known (by decide)
    · have blank := reads.blank
      rw [any_eq_false] at blank
      simpa using blank symbol inHost

/-- What a canonical endpoint comes from. -/
inductive EndpointForm (letters : Strings.LowerCase) (value : Text) : Text → Prop where
  | numeric {host : Text} {port : Nat} {address : Addr} (reads : Reads value host port)
      (found : parseAddr host = some address) (specified : isUnspecified address.unmap = false) :
      EndpointForm letters value (addrPortText address.unmap port)
  | named {host name : Text} {port : Nat} (reads : Reads value host port)
      (found : parseAddr host = none) (canonical : canonicalHostname letters host = .ok name) :
      EndpointForm letters value (joinHostPort name (decimal port))

theorem endpointForm_of_ok (found : canonicalEndpoint letters value = .ok canonical) :
    EndpointForm letters value canonical := by
  unfold canonicalEndpoint at found
  split at found
  · cases found
  next spec parsed =>
  obtain ⟨host, port, reads, rfl⟩ := reads_of_parse parsed
  cases numeric : parseAddr host with
  | some address =>
    simp only [specOf, numeric] at found
    split at found
    · cases found
    next specified =>
    cases found
    exact .numeric reads numeric (by simpa using specified)
  | none =>
    simp only [specOf, numeric] at found
    split at found
    · cases found
    next name accepted =>
    cases found
    exact .named reads numeric accepted

theorem canonicalEndpoint_numeric (reads : Reads value host port)
    (found : parseAddr host = some address) :
    canonicalEndpoint letters value = if isUnspecified address.unmap then .error .unspecified
      else .ok (addrPortText address.unmap port) := by
  rw [canonicalEndpoint, reads.parse]
  simp only [specOf, found]

theorem host_of_unspecified {name rest : Text} {other : Nat} (colon : ':' ∉ name)
    (same : name ++ ':' :: rest = unspecifiedEndpoint other) : name = text4 0 := by
  have cut : Strings.cut ':' (name ++ ':' :: rest) = some (name, rest) := cut_append colon
  rw [same] at cut
  exact (Prod.mk.inj (Option.some.inj cut)).1.symm

theorem addrPortText_ne_unspecified {other : Nat} (specified : isUnspecified address = false) :
    addrPortText address port ≠ unspecifiedEndpoint other := by
  intro same
  cases address with
  | v4 bits =>
    have colon : ':' ∉ text4 bits := by
      intro member
      rcases digit_or_dot_of_text4 member with digit | dot
      · exact absurd digit (by decide)
      · exact absurd dot (by decide)
    have parsed := parseIPv4_text4 bits
    rw [host_of_unspecified colon same, parseIPv4_text4] at parsed
    cases parsed
    exact absurd specified (by decide)
  | v6 bits zone =>
    cases same

/-- An endpoint becomes the unspecified address when its host is read as a name, and is
that address once it is trimmed. -/
theorem canonicalEndpoint_unspecified :
    (∃ port, canonicalEndpoint letters value = .ok (unspecifiedEndpoint port)) ↔
      ∃ spec, parse value = .ok spec ∧ spec.address = none ∧
        letters.text (Strings.trimSuffix ['.'] (Strings.trimSpace spec.host)) =
          "0.0.0.0".toList := by
  constructor
  · rintro ⟨other, found⟩
    generalize same : unspecifiedEndpoint other = canonical at found
    cases endpointForm_of_ok found with
    | numeric reads numeric specified =>
      exact absurd same.symm (addrPortText_ne_unspecified specified)
    | @named host name port reads numeric accepted =>
      have colon : ':' ∉ name := (canonicalHostname_ok accepted).2.not_mem rfl
      rw [show joinHostPort name (decimal port) = _ from if_neg colon] at same
      cases host_of_unspecified colon same.symm
      refine ⟨_, reads.parse, by rw [specOf, numeric], ?_⟩
      rw [specOf, numeric]
      exact (canonicalHostname_ok accepted).1.symm
  · rintro ⟨spec, parsed, unread, trimmed⟩
    refine ⟨spec.port, ?_⟩
    have accepted : canonicalHostname letters spec.host = .ok "0.0.0.0".toList := by
      rw [canonicalHostname, trimmed]
      decide
    rw [canonicalEndpoint, parsed]
    simp only [unread, accepted]
    rfl

/-- A second pass accepts a canonical endpoint and keeps it, unless it is the
unspecified address. -/
theorem canonicalEndpoint_canonical (found : canonicalEndpoint letters value = .ok canonical) :
    (canonicalEndpoint letters canonical = .ok canonical ∧
        ∀ port, canonical ≠ unspecifiedEndpoint port) ∨
      (canonicalEndpoint letters canonical = .error .unspecified ∧
        ∃ port, canonical = unspecifiedEndpoint port) := by
  cases endpointForm_of_ok found with
  | @numeric host port address reads numeric specified =>
    refine .inl ⟨?_, fun other => addrPortText_ne_unspecified specified⟩
    rw [canonicalEndpoint_numeric (reads_addrPort reads numeric) (parseAddr_text _),
      Addr.unmap_unmap, specified]
    rfl
  | @named host name port reads numeric accepted =>
    have hostname := (canonicalHostname_ok accepted).2
    have again := reads_joined hostname reads.positive (port_lt reads)
    have colon : ':' ∉ name := hostname.not_mem rfl
    have joined : joinHostPort name (decimal port) = name ++ ':' :: decimal port := if_neg colon
    cases second : parseAddr name with
    | none =>
      refine .inl ⟨?_, fun other same => ?_⟩
      · rw [canonicalEndpoint, again.parse]
        simp only [specOf, second, hostname.canonical letters]
      rw [joined] at same
      rw [host_of_unspecified colon same] at second
      cases (parseAddr_text (.v4 0)).symm.trans second
    | some address =>
      obtain ⟨text, four⟩ := text_of_parseAddr colon second
      rw [canonicalEndpoint_numeric again second]
      match address, four with
      | .v4 bits, _ =>
        by_cases zero : bits = 0
        · refine .inr ⟨if_pos (by simp [Addr.unmap, isUnspecified, zero]), port, ?_⟩
          rw [← text, zero]
          rfl
        · have specified : isUnspecified (Addr.v4 bits).unmap = false := by
            simpa [isUnspecified, Addr.unmap] using zero
          rw [specified, joined, ← text]
          exact .inl ⟨rfl, fun other => addrPortText_ne_unspecified specified⟩

end Endpoints

/-! ## DNS entries and tables -/

section Interface

variable {letters : Strings.LowerCase} {value canonical : Text}

theorem isSpace_of_isAddressSymbol {symbol : Char} (known : isAddressSymbol symbol = true) :
    isSpace symbol = false := by
  rw [Bool.eq_false_iff]
  intro space
  simp only [isSpace, Bool.or_eq_true, Bool.and_eq_true, decide_eq_true_eq, beq_iff_eq] at space
  simp only [isAddressSymbol, Bool.or_eq_true, beq_iff_eq] at known
  rcases known with (digit | rfl) | rfl
  · obtain ⟨number, found⟩ := Option.isSome_iff_exists.mp digit
    obtain ⟨found, -⟩ := Option.filter_eq_some_iff.mp found
    unfold Numeral.digitValue at found
    split at found
    · omega
    split at found
    · omega
    split at found
    · omega
    · cases found
  · exact absurd space (by decide)
  · exact absurd space (by decide)

theorem text6In_ne_nil {bits : BitVec 128} : text6In bits ≠ [] := by
  obtain ⟨before, after, shape, -⟩ := text6In_mark bits
  rw [shape]
  simp

/-- The text of an address has no space at its ends if the text that it was read from
has none. -/
theorem trimmed_unmap {address : Addr} (trimmed : Strings.Trimmed value)
    (found : parseAddr value = some address) : Strings.Trimmed address.unmap.text := by
  cases unmapped : address.unmap with
  | v4 bits =>
    exact trimmed_of_forall fun symbol member =>
      isSpace_of_isAddressSymbol (isAddressSymbol_of_text4 member)
  | v6 bits zone =>
    have same : address = .v6 bits zone := by
      cases address with
      | v4 other => cases unmapped
      | v6 other name =>
        by_cases mapped : other.extractLsb' 32 96 = 0xffff#96
        · rw [Addr.unmap, if_pos mapped] at unmapped
          cases unmapped
        · rw [Addr.unmap, if_neg mapped] at unmapped
          exact unmapped
    rw [same] at found
    obtain ⟨body, rfl⟩ := zone_of_parseAddr found
    by_cases unzoned : zone = []
    · refine trimmed_of_forall fun symbol member => ?_
      rw [Addr.text, zoneText, if_pos unzoned, append_nil] at member
      exact isSpace_of_isAddressSymbol (isAddressSymbol_of_text6In member)
    · have last := trimmed.last
      rw [zoneText, if_neg unzoned] at last
      constructor
      · intro symbol first
        rw [Addr.text, head?_append_of_ne_nil _ text6In_ne_nil] at first
        exact isSpace_of_isAddressSymbol (isAddressSymbol_of_text6In (mem_of_head? first))
      · intro symbol final
        refine last symbol ?_
        rw [Addr.text, zoneText, if_neg unzoned] at final
        rw [getLast?_append_of_ne_nil _ (cons_ne_nil _ _)] at final ⊢
        exact final

/-- A routing domain is not an address. -/
theorem parseAddr_tilde {host : Text} (colon : ':' ∉ host) : parseAddr ('~' :: host) = none := by
  cases found : parseAddr ('~' :: host) with
  | none => rfl
  | some address =>
    obtain ⟨text, four⟩ := text_of_parseAddr (by simpa using colon) found
    match address, four with
    | .v4 bits, _ =>
      have first : '~' ∈ text4 bits := by
        rw [show text4 bits = '~' :: host from text]
        exact mem_cons_self
      rcases digit_or_dot_of_text4 first with digit | dot
      · exact absurd digit (by decide)
      · exact absurd dot (by decide)

variable {number : Nat}

theorem canonicalDNS_domain {domain : Text} (trimmed : Strings.Trimmed domain)
    (filled : domain ≠ []) (name : parseAddr domain = none)
    (accepted : canonicalDomain letters domain = .ok canonical) :
    canonicalDNS letters number domain = .ok canonical := by
  rw [canonicalDNS, trimmed.trimSpace]
  simp only [filled, if_false, name, accepted]
  rfl

theorem canonicalDNS_address {address : Addr} (trimmed : Strings.Trimmed value)
    (filled : value ≠ []) (found : parseAddr value = some address) :
    canonicalDNS letters number value = .ok address.unmap.text := by
  rw [canonicalDNS, trimmed.trimSpace]
  simp only [filled, if_false, found]

/-- A canonical host name is a canonical DNS entry, also when it is an address. -/
theorem canonicalDNS_hostname (name : IsHostname value) :
    canonicalDNS letters number value = .ok value := by
  cases found : parseAddr value with
  | none =>
    have plain : value.head? ≠ some '~' := fun first =>
      name.not_mem rfl (mem_of_head? first)
    exact canonicalDNS_domain name.trimmed name.filled found
      (by rw [canonicalDomain, if_neg plain, name.canonical])
  | some address =>
    rw [canonicalDNS_address name.trimmed name.filled found]
    obtain ⟨text, four⟩ := text_of_parseAddr (name.not_mem rfl) found
    match address, four with
    | .v4 bits, _ => exact congrArg Except.ok text

theorem canonicalDNS_canonical (found : canonicalDNS letters number value = .ok canonical)
    (again : Nat) : canonicalDNS letters again canonical = .ok canonical := by
  unfold canonicalDNS at found
  dsimp only at found
  split at found
  · cases found
  split at found
  · next address numeric =>
    cases found
    rw [canonicalDNS_address (trimmed_unmap (trimmed_trimSpace value) numeric)
      unmap_text_ne_nil (parseAddr_text _), Addr.unmap_unmap]
  · have accepted := Fallible.mapError_eq_ok.mp found
    unfold canonicalDomain at accepted
    split at accepted
    · split at accepted
      · cases accepted
        rfl
      · obtain ⟨host, kept, rfl⟩ := Fallible.map_eq_ok.mp accepted
        have name := (canonicalHostname_ok kept).2
        have trimmed : Strings.Trimmed ('~' :: host) := by
          refine trimmed_of_forall fun symbol member => ?_
          rcases mem_cons.mp member with rfl | later
          · rfl
          · exact isSpace_of_isHostSymbol (name.symbols symbol later)
        refine canonicalDNS_domain trimmed (cons_ne_nil _ _) (parseAddr_tilde (name.not_mem rfl)) ?_
        have undotted : host ≠ ['.'] := by
          rintro rfl
          exact name.last rfl
        rw [canonicalDomain, head?_cons, tail_cons, if_neg undotted, name.canonical]
        rfl
    · exact canonicalDNS_hostname ((canonicalHostname_ok accepted).2)

theorem canonicalTable_canonical (value : Text) :
    canonicalTable letters (canonicalTable letters value) = canonicalTable letters value := by
  have fixed : ∀ table, table ≠ [] → Strings.Trimmed table → letters.text table = table →
      canonicalTable letters table = table := by
    intro table filled trimmed lowered
    rw [canonicalTable, trimmed.trimSpace, lowered]
    exact if_neg filled
  by_cases empty : letters.text (trimSpace value) = []
  · rw [show canonicalTable letters value = "auto".toList from if_pos empty]
    have plain : ∀ symbol ∈ "auto".toList, symbol.toNat < 128 ∧ symbol.toLower = symbol := by
      simp
    calc "auto".toList.map letters.lower = "auto".toList.map id :=
          map_congr_left fun symbol member =>
            (letters.ascii symbol (plain symbol member).1).trans (plain symbol member).2
      _ = "auto".toList := map_id _
  · rw [show canonicalTable letters value = _ from if_neg empty]
    refine fixed _ empty (letters.trimmed (trimmed_trimSpace value)) ?_
    simp only [Strings.LowerCase.text, map_map]
    exact map_congr_left fun symbol _ => letters.settles symbol

end Interface

end WgQuic.Canonical
