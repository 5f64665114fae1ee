import WgQuic.Lib.Numeral
import WgQuic.Lib.Strings
import WgQuic.Net.Prefix

/-!
# The texts of addresses

How `netip` reads and writes addresses and prefixes.  Every address and every
valid prefix reads back from its text, and an IPv4 address has no other text.
-/

namespace WgQuic.Net

open List Numeral

def decimal (value : Nat) : List Char := Nat.toDigits 10 value

def hexadecimal (value : Nat) : List Char := Nat.toDigits 16 value

/-! ## IPv4 -/

/-- One of the four numbers; it has no leading zeros. -/
def parseOctet (text : List Char) : Option Nat :=
  (readPlain 10 text).filter (· < 256)

def parseIPv4 (text : List Char) : Option (BitVec 32) :=
  match text.splitOn '.' with
  | [first, second, third, fourth] => do
      let first ← parseOctet first
      let second ← parseOctet second
      let third ← parseOctet third
      let fourth ← parseOctet fourth
      return BitVec.ofNat 32 (((first * 256 + second) * 256 + third) * 256 + fourth)
  | _ => none

def octets (bits : BitVec 32) : List Nat :=
  [bits.toNat / 16777216, bits.toNat / 65536 % 256, bits.toNat / 256 % 256, bits.toNat % 256]

def text4 (bits : BitVec 32) : List Char :=
  ['.'].intercalate ((octets bits).map decimal)

section IPv4

variable {text : List Char} {value : Nat} {bits : BitVec 32}

theorem parseOctet_decimal (small : value < 256) : parseOctet (decimal value) = some value := by
  simp [parseOctet, decimal, readPlain_toDigits, small]

theorem parseOctet_eq_some (found : parseOctet text = some value) :
    text = decimal value ∧ value < 256 := by
  obtain ⟨plain, small⟩ := Option.filter_eq_some_iff.mp found
  exact ⟨readPlain_eq_some plain, of_decide_eq_true small⟩

theorem isDigit_of_decimal {symbol : Char} (member : symbol ∈ decimal value) :
    isDigit 10 symbol = true :=
  isDigit_of_toDigits (by omega) (by omega) member

theorem dot_not_mem_decimal : '.' ∉ decimal value :=
  fun member => absurd (isDigit_of_decimal member) (by decide)

theorem decimal_cons (value : Nat) :
    ∃ symbol more, decimal value = symbol :: more ∧ isDigit 10 symbol = true := by
  obtain ⟨symbol, more, shape⟩ := exists_cons_of_ne_nil
    (show decimal value ≠ [] from Nat.toDigits_ne_nil)
  exact ⟨symbol, more, shape, isDigit_of_decimal (shape ▸ mem_cons_self)⟩

/-- The text of an IPv4 address starts with a number and a dot. -/
theorem text4_eq (bits : BitVec 32) :
    ∃ value tail, value < 256 ∧ text4 bits = decimal value ++ '.' :: tail := by
  exact ⟨bits.toNat / 16777216, ['.'].intercalate ((octets bits).tail.map decimal), by omega, rfl⟩

theorem octets_ofNat {first second third fourth : Nat} (small : first < 256 ∧ second < 256 ∧
    third < 256 ∧ fourth < 256) :
    octets (BitVec.ofNat 32 (((first * 256 + second) * 256 + third) * 256 + fourth)) =
      [first, second, third, fourth] := by
  simp only [octets, BitVec.toNat_ofNat, Nat.reducePow, List.cons.injEq, and_true]
  omega

theorem parseIPv4_text4 (bits : BitVec 32) : parseIPv4 (text4 bits) = some bits := by
  have parts : (text4 bits).splitOn '.' = (octets bits).map decimal := by
    refine splitOn_intercalate _ ?_ (by simp [octets])
    intro part member
    obtain ⟨value, -, rfl⟩ := mem_map.mp member
    exact dot_not_mem_decimal
  rw [parseIPv4, parts]
  simp only [octets, map_cons, map_nil]
  rw [parseOctet_decimal (by omega), parseOctet_decimal (by omega), parseOctet_decimal (by omega),
    parseOctet_decimal (by omega)]
  refine congrArg some (BitVec.eq_of_toNat_eq ?_)
  rw [BitVec.toNat_ofNat]
  omega

theorem parseIPv4_eq_some (found : parseIPv4 text = some bits) : text = text4 bits := by
  unfold parseIPv4 at found
  split at found
  · next first second third fourth parts =>
    obtain ⟨a, found1, found⟩ := Option.bind_eq_some_iff.mp found
    obtain ⟨b, found2, found⟩ := Option.bind_eq_some_iff.mp found
    obtain ⟨c, found3, found⟩ := Option.bind_eq_some_iff.mp found
    obtain ⟨d, found4, found⟩ := Option.bind_eq_some_iff.mp found
    cases found
    obtain ⟨rfl, small1⟩ := parseOctet_eq_some found1
    obtain ⟨rfl, small2⟩ := parseOctet_eq_some found2
    obtain ⟨rfl, small3⟩ := parseOctet_eq_some found3
    obtain ⟨rfl, small4⟩ := parseOctet_eq_some found4
    calc text = ['.'].intercalate (text.splitOn '.') := (intercalate_splitOn '.').symm
      _ = text4 _ := by
        rw [parts, text4, octets_ofNat ⟨small1, small2, small3, small4⟩]
        rfl
  · cases found

/-- A symbol of a written address, apart from its zone. -/
def isAddressSymbol (symbol : Char) : Bool :=
  isDigit 16 symbol || symbol == ':' || symbol == '.'

theorem digit_or_dot_of_text4 {symbol : Char} (member : symbol ∈ text4 bits) :
    isDigit 10 symbol = true ∨ symbol = '.' := by
  simp only [text4, octets, map_cons, map_nil, List.intercalate, List.intersperse,
    flatten_cons, flatten_nil, append_nil, mem_append,
    mem_singleton] at member
  rcases member with first | dot | second | dot | third | dot | fourth
  · exact .inl (isDigit_of_decimal first)
  · exact .inr dot
  · exact .inl (isDigit_of_decimal second)
  · exact .inr dot
  · exact .inl (isDigit_of_decimal third)
  · exact .inr dot
  · exact .inl (isDigit_of_decimal fourth)

end IPv4

/-! ## IPv6 -/

/-- The lowest groups of sixteen bits of a number, the highest group first. -/
def splitGroups : Nat → Nat → List Nat
  | 0, _ => []
  | count + 1, value => splitGroups count (value / 65536) ++ [value % 65536]

def joinGroups (groups : List Nat) : Nat :=
  groups.foldl (fun value group => value * 65536 + group) 0

/-- The groups read so far, and how many stand before the `::`. -/
abbrev GroupsRead := List Nat × Option Nat

/-- What follows a group: the end, a dotted IPv4 address that began with it, or a
colon and more. -/
def afterGroup (next : List Nat → Option Nat → List Char → Option GroupsRead)
    (groups : List Nat) (ellipsis : Option Nat) (digits : List Char) (value : Nat) :
    List Char → Option GroupsRead
  | [] => some (groups ++ [value], ellipsis)
  | mark :: rest =>
    if mark = '.' then
      if (ellipsis = none ∧ groups.length ≠ 6) ∨ 6 < groups.length then none
      else (parseIPv4 (digits ++ mark :: rest)).map fun bits =>
        (groups ++ [bits.toNat / 65536, bits.toNat % 65536], ellipsis)
    else if mark ≠ ':' then none
    else
      match rest with
      | [] => none
      | symbol :: more =>
        if symbol ≠ ':' then next (groups ++ [value]) ellipsis (symbol :: more)
        else if ellipsis.isSome then none
        else if more = [] then some (groups ++ [value], some (groups.length + 1))
        else next (groups ++ [value]) (some (groups.length + 1)) more

/-- The loop over the groups, with room for so many of them. -/
def parseGroups : Nat → List Nat → Option Nat → List Char → Option GroupsRead
  | 0, _, _, _ => none
  | room + 1, groups, ellipsis, text =>
    let digits := text.takeWhile (isDigit 16)
    match Numeral.read 16 digits with
    | none => none
    | some value =>
      if 4 < digits.length then none
      else afterGroup (parseGroups room) groups ellipsis digits value
        (text.dropWhile (isDigit 16))

/-- The `::` stands for the groups that are missing, at least one. -/
def expandGroups : GroupsRead → Option (List Nat)
  | (groups, none) => if groups.length = 8 then some groups else none
  | (groups, some place) =>
    if groups.length < 8 then
      some (groups.take place ++ List.replicate (8 - groups.length) 0 ++ groups.drop place)
    else none

def parseBody (text : List Char) : Option (List Nat) :=
  if text.take 2 = [':', ':'] then
    if text.drop 2 = [] then some (List.replicate 8 0)
    else (parseGroups 8 [] (some 0) (text.drop 2)).bind expandGroups
  else (parseGroups 8 [] none text).bind expandGroups

/-- The zone is cut off first, and is not empty. -/
def splitZone (text : List Char) : Option (List Char × List Char) :=
  match Strings.cut '%' text with
  | none => some (text, [])
  | some (_, []) => none
  | some (body, zone) => some (body, zone)

def parseIPv6 (text : List Char) : Option Addr := do
  let (body, zone) ← splitZone text
  let groups ← parseBody body
  return .v6 (BitVec.ofNat 128 (joinGroups groups)) zone

/-- How many groups are zero from a place on. -/
def zeroRun (groups : List Nat) (start : Nat) : Nat :=
  ((groups.drop start).takeWhile (· = 0)).length

/-- A run of two or more zero groups takes the place of a shorter one. -/
def betterRun (groups : List Nat) (best : Nat × Nat) (start : Nat) : Nat × Nat :=
  if 2 ≤ zeroRun groups start ∧ best.2 < zeroRun groups start then
    (start, zeroRun groups start)
  else best

/-- The first of the longest runs: its place and length. -/
def longestRun (groups : List Nat) : Nat × Nat :=
  (List.range 8).foldl (betterRun groups) (0, 0)

def colons : List Nat → List Char
  | [] => []
  | [group] => hexadecimal group
  | group :: rest => hexadecimal group ++ ':' :: colons rest

def text6 (groups : List Nat) : List Char :=
  let (start, length) := longestRun groups
  if length = 0 then colons groups
  else colons (groups.take start) ++ ':' :: ':' :: colons (groups.drop (start + length))

section IPv6

variable {groups : List Nat} {group : Nat}

theorem splitGroups_length (count value : Nat) : (splitGroups count value).length = count := by
  induction count generalizing value with
  | zero => rfl
  | succ count ih => rw [splitGroups, length_append, ih, length_singleton]

variable {value room : Nat} {ellipsis : Option Nat} {tail : List Char}
  {rest after before : List Nat}

theorem splitGroups_lt {count : Nat} (member : group ∈ splitGroups count value) :
    group < 65536 := by
  induction count generalizing value with
  | zero => cases member
  | succ count ih =>
    rcases mem_append.mp member with earlier | last
    · exact ih earlier
    · rw [mem_singleton.mp last]
      exact Nat.mod_lt _ (by omega)

theorem joinGroups_splitGroups {count : Nat} (small : value < 65536 ^ count) :
    joinGroups (splitGroups count value) = value := by
  induction count generalizing value with
  | zero =>
    rw [Nat.lt_one_iff.mp small]
    rfl
  | succ count ih =>
    have upper : value / 65536 < 65536 ^ count := by
      exact Nat.div_lt_of_lt_mul (by rwa [mul_comm])
    rw [joinGroups, splitGroups, foldl_append]
    change joinGroups (splitGroups count (value / 65536)) * 65536 + value % 65536 = value
    rw [ih upper]
    omega

theorem isDigit_of_hexadecimal {symbol : Char} (member : symbol ∈ hexadecimal group) :
    isDigit 16 symbol = true :=
  isDigit_of_toDigits (by omega) (by omega) member

/-- One round of the loop reads a written group. -/
theorem parseGroups_hexadecimal (small : group < 65536) (stops : tail.takeWhile (isDigit 16) = []) :
    parseGroups (room + 1) groups ellipsis (hexadecimal group ++ tail) =
      afterGroup (parseGroups room) groups ellipsis (hexadecimal group) group tail := by
  have digits : ∀ symbol ∈ hexadecimal group, isDigit 16 symbol = true :=
    fun _ => isDigit_of_hexadecimal
  have short : (hexadecimal group).length ≤ 4 :=
    (Nat.length_toDigits_le_iff (by omega) (by omega)).mpr small
  have front : (hexadecimal group ++ tail).takeWhile (isDigit 16) = hexadecimal group := by
    rw [takeWhile_append_of_pos digits, stops, append_nil]
  have back : (hexadecimal group ++ tail).dropWhile (isDigit 16) = tail := by
    have whole := takeWhile_append_dropWhile (p := isDigit 16) (l := tail)
    rw [stops, nil_append] at whole
    rw [dropWhile_append_of_pos digits, whole]
  rw [parseGroups, front, back, hexadecimal, read_toDigits (by omega) (by omega)]
  exact if_neg (by rw [← hexadecimal]; omega)

theorem colons_cons (group : Nat) (rest : List Nat) :
    ∃ symbol more, colons (group :: rest) = symbol :: more ∧ isDigit 16 symbol = true := by
  have filled : hexadecimal group ≠ [] := Nat.toDigits_ne_nil
  obtain ⟨symbol, more, shape⟩ := exists_cons_of_ne_nil filled
  have digit : isDigit 16 symbol = true := isDigit_of_hexadecimal (shape ▸ mem_cons_self)
  cases rest with
  | nil => exact ⟨symbol, more, shape, digit⟩
  | cons next rest =>
    exact ⟨symbol, more ++ ':' :: colons (next :: rest), by rw [colons, shape]; rfl; simp, digit⟩

/-- What follows a group when another one comes after a single colon. -/
theorem afterGroup_colon {next : List Nat → Option Nat → List Char → Option GroupsRead}
    {digits : List Char} (filled : rest ≠ []) :
    afterGroup next groups ellipsis digits value (':' :: (colons rest ++ tail)) =
      next (groups ++ [value]) ellipsis (colons rest ++ tail) := by
  obtain ⟨group, rest, rfl⟩ := exists_cons_of_ne_nil filled
  obtain ⟨symbol, more, shape, digit⟩ := colons_cons group rest
  have other : symbol ≠ ':' := by
    rintro rfl
    exact absurd digit (by decide)
  rw [shape]
  simp [afterGroup, other]

/-- The loop over groups that are written with a tail after them. -/
theorem parseGroups_colons (stops : tail.takeWhile (isDigit 16) = [])
    (small : ∀ other ∈ rest ++ [group], other < 65536) (fits : rest.length < room) :
    parseGroups room groups ellipsis (colons (rest ++ [group]) ++ tail) =
      afterGroup (parseGroups (room - rest.length - 1)) (groups ++ rest) ellipsis
        (hexadecimal group) group tail := by
  induction rest generalizing room groups with
  | nil =>
    obtain ⟨room, rfl⟩ := Nat.exists_eq_succ_of_ne_zero (Nat.ne_of_gt fits)
    rw [append_nil]
    exact parseGroups_hexadecimal (small group (by simp)) stops
  | cons first rest ih =>
    obtain ⟨room, rfl⟩ := Nat.exists_eq_succ_of_ne_zero (Nat.ne_of_gt (Nat.zero_lt_of_lt fits))
    have filled : rest ++ [group] ≠ [] := by simp
    have shape : colons (first :: rest ++ [group]) ++ tail =
        hexadecimal first ++ ':' :: (colons (rest ++ [group]) ++ tail) := by
      rw [cons_append, colons]
      simp
      simp
    rw [shape, parseGroups_hexadecimal (small first (by simp)) rfl, afterGroup_colon filled,
      ih (fun other member => small other (mem_cons_of_mem _ member)) (by simpa using fits)]
    simp

theorem parseGroups_all (filled : rest ≠ []) (small : ∀ group ∈ rest, group < 65536)
    (fits : rest.length ≤ room) :
    parseGroups room groups ellipsis (colons rest) = some (groups ++ rest, ellipsis) := by
  obtain ⟨front, last, rfl⟩ := (eq_nil_or_concat' _).resolve_left filled
  rw [length_append, length_singleton] at fits
  rw [← append_nil (colons _), parseGroups_colons rfl small (by omega)]
  simp [afterGroup]

/-- Groups, the `::`, and more groups. -/
theorem parseGroups_ellipsis (filled : before ≠ [])
    (small : ∀ group ∈ before ++ after, group < 65536) (fits : (before ++ after).length ≤ room) :
    parseGroups room groups none (colons before ++ ':' :: ':' :: colons after) =
      some (groups ++ before ++ after, some (groups ++ before).length) := by
  obtain ⟨front, last, rfl⟩ := (eq_nil_or_concat' _).resolve_left filled
  rw [length_append, length_append, length_singleton] at fits
  rw [parseGroups_colons rfl (fun group member => small group (mem_append_left _ member))
    (by omega)]
  cases after with
  | nil => simp [afterGroup, colons, Nat.add_assoc]
  | cons next rest =>
    obtain ⟨symbol, more, shape, -⟩ := colons_cons next rest
    have later : parseGroups (room - front.length - 1) (groups ++ front ++ [last])
        (some ((groups ++ front).length + 1)) (symbol :: more) =
        some (groups ++ front ++ [last] ++ next :: rest, some ((groups ++ front).length + 1)) := by
      rw [← shape]
      exact parseGroups_all (cons_ne_nil next rest)
        (fun group member => small group (mem_append_right _ member)) (by omega)
    rw [shape]
    simp only [afterGroup, later]
    simp [Nat.add_assoc]

theorem foldl_betterRun (starts : List Nat) {best : Nat × Nat}
    (known : best.2 = 0 ∨ best.2 = zeroRun groups best.1) :
    (starts.foldl (betterRun groups) best).2 = 0 ∨ (starts.foldl (betterRun groups) best).2 =
        zeroRun groups (starts.foldl (betterRun groups) best).1 := by
  induction starts generalizing best with
  | nil => exact known
  | cons start starts ih =>
    refine ih ?_
    unfold betterRun
    split
    · exact .inr rfl
    · exact known

/-- A run of zero groups and what stands around it. -/
theorem eq_around_zeroRun (groups : List Nat) (start : Nat) :
    groups = groups.take start ++ (List.replicate (zeroRun groups start) 0 ++
      groups.drop (start + zeroRun groups start)) := by
  have whole : (groups.drop start).takeWhile (· = 0) ++ (groups.drop start).dropWhile (· = 0) =
      groups.drop start := takeWhile_append_dropWhile
  have zeros : (groups.drop start).takeWhile (· = 0) = List.replicate (zeroRun groups start) 0 := by
    refine eq_replicate_iff.mpr ⟨rfl, fun group member => ?_⟩
    simpa using mem_takeWhile_imp member
  have after : groups.drop (start + zeroRun groups start) =
      (groups.drop start).dropWhile (· = 0) := by
    rw [← drop_drop]
    nth_rewrite 1 [← whole]
    exact drop_left
  rw [after, ← zeros, whole, take_append_drop]

/-- A text that starts with a digit does not start with `::`. -/
theorem parseBody_digit {symbol : Char} {more : List Char} (digit : isDigit 16 symbol = true) :
    parseBody (symbol :: more) = (parseGroups 8 [] none (symbol :: more)).bind expandGroups := by
  refine if_neg fun same => ?_
  obtain ⟨rfl, -⟩ := List.cons.inj same
  exact absurd digit (by decide)

theorem parseBody_colons {zeros : Nat} (missing : zeros ≠ 0)
    (full : (before ++ after).length + zeros = 8)
    (small : ∀ group ∈ before ++ after, group < 65536) :
    parseBody (colons before ++ ':' :: ':' :: colons after) =
      some (before ++ (List.replicate zeros 0 ++ after)) := by
  have expanded : expandGroups (before ++ after, some before.length) =
      some (before ++ (List.replicate zeros 0 ++ after)) := by
    have rest : 8 - (before ++ after).length = zeros := by omega
    rw [expandGroups, if_pos (by omega), rest]
    simp
  have fits : (before ++ after).length ≤ 8 := by omega
  cases before with
  | nil =>
    cases after with
    | nil =>
      obtain rfl : zeros = 8 := by simpa using full
      rfl
    | cons next rest =>
      obtain ⟨symbol, more, shape, -⟩ := colons_cons next rest
      have read : parseGroups 8 [] (some 0) (colons (next :: rest)) =
          some (next :: rest, some 0) := parseGroups_all (cons_ne_nil next rest) small fits
      rw [shape] at read ⊢
      simpa [parseBody, colons, read] using expanded
  | cons first rest =>
    obtain ⟨symbol, more, shape, digit⟩ := colons_cons first rest
    have read : parseGroups 8 [] none (colons (first :: rest) ++ ':' :: ':' :: colons after) =
        some (first :: rest ++ after, some (first :: rest).length) :=
      parseGroups_ellipsis (cons_ne_nil first rest) small fits
    rw [shape, cons_append] at read ⊢
    rw [parseBody_digit digit, read]
    exact expanded

theorem parseBody_text6 (full : groups.length = 8) (small : ∀ group ∈ groups, group < 65536) :
    parseBody (text6 groups) = some groups := by
  have spec : (longestRun groups).2 = 0 ∨ _ := foldl_betterRun (List.range 8) (.inl rfl)
  unfold text6
  rw [← longestRun] at spec
  generalize longestRun groups = run at spec ⊢
  obtain ⟨start, length⟩ := run
  dsimp only at spec ⊢
  split
  · obtain ⟨first, rest, rfl⟩ := exists_cons_of_length_eq_add_one full
    obtain ⟨symbol, more, shape, digit⟩ := colons_cons first rest
    have read : parseGroups 8 [] none (colons (first :: rest)) = some (first :: rest, none) :=
      parseGroups_all (cons_ne_nil first rest) small (Nat.le_of_eq full)
    rw [shape] at read
    rw [shape, parseBody_digit digit, read]
    exact if_pos full
  next long =>
  obtain rfl := spec.resolve_left long
  have around := eq_around_zeroRun groups start
  have count := congrArg List.length around
  rw [length_append, length_append, length_replicate] at count
  rw [parseBody_colons long, ← around]
  · rw [length_append]
    omega
  · intro group member
    refine small group ?_
    rcases mem_append.mp member with before | after
    · exact mem_of_mem_take before
    · exact mem_of_mem_drop after

/-- An IPv4 address at the end, after the groups that an IPv4-mapped address starts with. -/
theorem parseBody_mapped (bits : BitVec 32) : parseBody ("::ffff:".toList ++ text4 bits) =
      some [0, 0, 0, 0, 0, 65535, bits.toNat / 65536, bits.toNat % 65536] := by
  obtain ⟨value, tail, small, shape⟩ := text4_eq bits
  obtain ⟨symbol, more, front, digit⟩ := decimal_cons value
  have digits : ∀ symbol ∈ decimal value, isDigit 16 symbol = true :=
    fun _ member => isDigit_mono (by omega) (isDigit_of_decimal member)
  have short : (decimal value).length ≤ 3 :=
    (Nat.length_toDigits_le_iff (by omega) (by omega)).mpr (by omega)
  have run : (decimal value ++ '.' :: tail).takeWhile (isDigit 16) = decimal value := by
    rw [takeWhile_append_of_pos digits]
    exact append_nil _
  have rest : (decimal value ++ '.' :: tail).dropWhile (isDigit 16) = '.' :: tail :=
    dropWhile_append_of_pos digits
  have filled : decimal value ≠ [] := Nat.toDigits_ne_nil
  obtain ⟨group, read⟩ := exists_readFrom digits
  have last : parseGroups 7 [65535] (some 0) (decimal value ++ '.' :: tail) =
      some ([65535, bits.toNat / 65536, bits.toNat % 65536], some 0) := by
    rw [parseGroups, run, rest, Numeral.read, if_neg filled, read]
    simp only [afterGroup]
    rw [← shape, parseIPv4_text4]
    simp
    omega
  have text : "::ffff:".toList ++ text4 bits =
      ':' :: ':' :: (hexadecimal 65535 ++ ':' :: (decimal value ++ '.' :: tail)) := by
    rw [shape]
    rfl
  have other : symbol ≠ ':' := by
    rintro rfl
    exact absurd digit (by decide)
  have first : parseGroups 8 [] (some 0)
      (hexadecimal 65535 ++ ':' :: (decimal value ++ '.' :: tail)) =
      some ([65535, bits.toNat / 65536, bits.toNat % 65536], some 0) := by
    rw [parseGroups_hexadecimal (by omega) rfl, front]
    rw [front] at last
    simpa [afterGroup, other] using last
  rw [text]
  simp [parseBody, first, expandGroups, List.replicate]

end IPv6

/-! ## Addresses -/

/-- The symbols that end the first number of an address. -/
def endsNumber (symbol : Char) : Bool :=
  symbol == '.' || symbol == ':' || symbol == '%'

def parseAddr (text : List Char) : Option Addr :=
  match text.find? endsNumber with
  | some '.' => (parseIPv4 text).map .v4
  | some ':' => parseIPv6 text
  | _ => none

/-- `Is4In6` of an IPv6 address -/
def isMapped (bits : BitVec 128) : Bool :=
  bits.extractLsb' 32 96 = 0xffff#96

def text6In (bits : BitVec 128) : List Char :=
  if isMapped bits then "::ffff:".toList ++ text4 (bits.extractLsb' 0 32)
  else text6 (splitGroups 8 bits.toNat)

def zoneText (zone : List Char) : List Char :=
  if zone = [] then [] else '%' :: zone

/-- `String` -/
def Addr.text : Addr → List Char
  | .v4 bits => text4 bits
  | .v6 bits zone => text6In bits ++ zoneText zone

section Addresses

variable {symbol : Char} {bits : BitVec 128} {zone : List Char}

theorem find?_endsNumber {before after : List Char}
    (digits : ∀ symbol ∈ before, isDigit 16 symbol = true) (ends : endsNumber symbol = true) :
    (before ++ symbol :: after).find? endsNumber = some symbol := by
  have skipped : before.find? endsNumber = none := by
    refine find?_eq_none.mpr fun other member marked => ?_
    have digit := digits other member
    simp only [endsNumber, Bool.or_eq_true, beq_iff_eq] at marked
    rcases marked with (rfl | rfl) | rfl
    all_goals exact absurd digit (by decide)
  rw [find?_append, skipped, find?_cons_of_pos ends]
  rfl

theorem colons_mark (groups : List Nat) (tail : List Char) :
    ∃ before after, colons groups ++ ':' :: tail = before ++ ':' :: after ∧
      ∀ symbol ∈ before, isDigit 16 symbol = true := by
  match groups with
  | [] => exact ⟨[], tail, rfl, nofun⟩
  | [group] => exact ⟨hexadecimal group, tail, rfl, fun _ => isDigit_of_hexadecimal⟩
  | group :: next :: rest =>
    refine ⟨hexadecimal group, colons (next :: rest) ++ ':' :: tail, ?_,
      fun _ => isDigit_of_hexadecimal⟩
    rw [colons, append_assoc, cons_append]
    simp

theorem text6In_mark (bits : BitVec 128) : ∃ before after, text6In bits = before ++ ':' :: after ∧
      ∀ symbol ∈ before, isDigit 16 symbol = true := by
  unfold text6In
  split
  · exact ⟨[], _, rfl, nofun⟩
  · unfold text6
    dsimp only
    split
    · have full := splitGroups_length 8 bits.toNat
      match splitGroups 8 bits.toNat, full with
      | group :: next :: rest, _ =>
        refine ⟨hexadecimal group, colons (next :: rest), ?_, fun _ => isDigit_of_hexadecimal⟩
        rw [colons]
        simp
    · exact colons_mark _ _

theorem isAddressSymbol_of_digit (digit : isDigit 16 symbol = true) :
    isAddressSymbol symbol = true := by
  rw [isAddressSymbol, digit]
  rfl

theorem isAddressSymbol_of_text4 {bits : BitVec 32} (member : symbol ∈ text4 bits) :
    isAddressSymbol symbol = true := by
  rcases digit_or_dot_of_text4 member with digit | rfl
  · exact isAddressSymbol_of_digit (isDigit_mono (by omega) digit)
  · rfl

theorem isAddressSymbol_of_colons {groups : List Nat} (member : symbol ∈ colons groups) :
    isAddressSymbol symbol = true := by
  induction groups using colons.induct with
  | case1 => cases member
  | case2 group => exact isAddressSymbol_of_digit (isDigit_of_hexadecimal member)
  | case3 group rest single ih =>
    rw [colons] at member
    · rcases mem_append.mp member with first | later
      · exact isAddressSymbol_of_digit (isDigit_of_hexadecimal first)
      · rcases mem_cons.mp later with rfl | rest
        · rfl
        · exact ih rest
    · exact single

theorem isAddressSymbol_of_text6In (member : symbol ∈ text6In bits) :
    isAddressSymbol symbol = true := by
  unfold text6In at member
  split at member
  · rcases mem_append.mp member with marks | address
    · exact all_eq_true.mp (by decide : "::ffff:".toList.all isAddressSymbol = true) _ marks
    · exact isAddressSymbol_of_text4 address
  · unfold text6 at member
    dsimp only at member
    split at member
    · exact isAddressSymbol_of_colons member
    · rcases mem_append.mp member with before | later
      · exact isAddressSymbol_of_colons before
      · simp only [mem_cons] at later
        rcases later with rfl | rfl | after
        · rfl
        · rfl
        · exact isAddressSymbol_of_colons after

theorem parseBody_text6In (bits : BitVec 128) : ∃ groups, parseBody (text6In bits) = some groups ∧
      BitVec.ofNat 128 (joinGroups groups) = bits := by
  unfold text6In
  split
  · next mapped =>
    refine ⟨_, parseBody_mapped _, BitVec.eq_of_toNat_eq ?_⟩
    have high := congrArg BitVec.toNat (of_decide_eq_true mapped)
    have bound := bits.isLt
    simp only [joinGroups, foldl_cons, foldl_nil] at high ⊢
    norm_num at high bound ⊢
    omega
  · refine ⟨_, parseBody_text6 (splitGroups_length 8 _) fun _ => splitGroups_lt, ?_⟩
    rw [joinGroups_splitGroups (bits.isLt.trans_le (by norm_num)), BitVec.ofNat_toNat,
      BitVec.setWidth_eq]

theorem percent_not_mem_text6In {bits : BitVec 128} : '%' ∉ text6In bits :=
  fun member => absurd (isAddressSymbol_of_text6In member) (by decide)

theorem splitZone_text (bits : BitVec 128) (zone : List Char) :
    splitZone (text6In bits ++ zoneText zone) = some (text6In bits, zone) := by
  cases zone with
  | nil =>
    have uncut := Strings.cut_eq_none.mpr (percent_not_mem_text6In : '%' ∉ text6In bits)
    rw [zoneText, if_pos rfl, append_nil, splitZone, uncut]
  | cons first rest =>
    rw [zoneText, if_neg (cons_ne_nil _ _), splitZone, Strings.cut_append percent_not_mem_text6In]

/-- Every address reads back from its text. -/
theorem parseAddr_text (addr : Addr) : parseAddr addr.text = some addr := by
  cases addr with
  | v4 bits =>
    have dot : (text4 bits).find? endsNumber = some '.' := by
      exact find?_endsNumber (fun symbol member =>
        isDigit_mono (by omega) (isDigit_of_decimal member)) rfl
    rw [Addr.text, parseAddr, dot, parseIPv4_text4]
    rfl
  | v6 bits zone =>
    obtain ⟨before, after, shape, digits⟩ := text6In_mark bits
    have colon : (text6In bits ++ zoneText zone).find? endsNumber = some ':' := by
      rw [shape, append_assoc]
      exact find?_endsNumber digits rfl
    obtain ⟨groups, read, joined⟩ := parseBody_text6In bits
    rw [Addr.text, parseAddr, colon]
    simp only [parseIPv6, splitZone_text, read, joined, Option.bind_eq_bind, Option.bind_some]
    rfl

/-- A text without colons is the only one of its address. -/
theorem text_of_parseAddr {text : List Char} {addr : Addr} (plain : ':' ∉ text)
    (found : parseAddr text = some addr) : addr.text = text ∧ addr.is4 = true := by
  unfold parseAddr at found
  split at found
  · obtain ⟨bits, read, rfl⟩ := Option.map_eq_some_iff.mp found
    exact ⟨(parseIPv4_eq_some read).symm, rfl⟩
  · next colon => exact absurd (mem_of_find?_eq_some colon) plain
  · cases found

end Addresses

/-! ## Prefixes -/

def Addr.value : Addr → Nat
  | .v4 bits => bits.toNat
  | .v6 bits _ => bits.toNat

/-- A zone is refused, and so are leading zeros in the number of bits. -/
def parsePrefix (text : List Char) : Option Prefix := do
  let (address, length) ← Strings.cutLast '/' text
  let addr ← parseAddr address
  if addr.withoutZone ≠ addr then none
  let bits ← readPlain 10 length
  if addr.bitLen < bits then none
  return prefixFrom addr bits

/-- `String` -/
def Prefix.text (owned : Prefix) : List Char :=
  if owned.isValid then owned.addr.withoutZone.text ++ '/' :: decimal owned.bits
  else "invalid Prefix".toList

namespace Prefix

variable {owned : Prefix}

theorem parsePrefix_text (valid : owned.isValid = true) :
    parsePrefix owned.text = some (prefixFrom owned.addr owned.bits) := by
  have unslashed : '/' ∉ decimal owned.bits :=
    fun member => absurd (isDigit_of_decimal member) (by decide)
  have bits : readPlain 10 (decimal owned.bits) = some owned.bits :=
    readPlain_toDigits (by omega) (by omega) _
  have unzoned : owned.addr.withoutZone.withoutZone = owned.addr.withoutZone := by
    cases owned.addr <;> rfl
  have length : owned.addr.withoutZone.bitLen = owned.addr.bitLen := by
    cases owned.addr <;> rfl
  have fits : ¬owned.addr.bitLen < owned.bits := Nat.not_lt.mpr (of_decide_eq_true valid)
  rw [text, if_pos valid, parsePrefix, Strings.cutLast_append unslashed]
  simp [parseAddr_text, unzoned, bits, length, fits, prefixFrom]

end Prefix

end WgQuic.Net
