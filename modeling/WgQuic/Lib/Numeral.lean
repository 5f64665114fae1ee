import Mathlib.Data.List.Induction
import Mathlib.Data.Nat.Digits.Defs

/-!
# Numerals

Numbers written with digits and letters in a base up to sixteen, and bytes
written with two such digits each.
-/

namespace Numeral

/-- The value of a digit; letters count in either case. -/
def digitValue (symbol : Char) : Option Nat :=
  if 48 ≤ symbol.toNat ∧ symbol.toNat ≤ 57 then some (symbol.toNat - 48)
  else if 97 ≤ symbol.toNat ∧ symbol.toNat ≤ 102 then some (symbol.toNat - 87)
  else if 65 ≤ symbol.toNat ∧ symbol.toNat ≤ 70 then some (symbol.toNat - 55)
  else none

def digit (base : Nat) (symbol : Char) : Option Nat :=
  (digitValue symbol).filter (· < base)

def isDigit (base : Nat) (symbol : Char) : Bool :=
  (digit base symbol).isSome

theorem digitValue_digitChar {value : Nat} (small : value < 16) :
    digitValue value.digitChar = some value := by
  rcases value with _ | _ | _ | _ | _ | _ | _ | _ | _ | _ | _ | _ | _ | _ | _ | _ | value
  all_goals first | rfl | omega

theorem digit_digitChar {base value : Nat} (narrow : base ≤ 16) (small : value < base) :
    digit base value.digitChar = some value := by
  rw [digit, digitValue_digitChar (small.trans_le narrow)]
  simp [Option.filter, small]

/-- The digits are read from the left. -/
def readFrom (base : Nat) : Nat → List Char → Option Nat
  | value, [] => some value
  | value, symbol :: rest =>
    match digit base symbol with
    | none => none
    | some next => readFrom base (value * base + next) rest

/-- A numeral has at least one digit. -/
def read (base : Nat) (text : List Char) : Option Nat :=
  if text = [] then none else readFrom base 0 text

/-- A numeral without leading zeros. -/
def readPlain (base : Nat) (text : List Char) : Option Nat :=
  (read base text).filter fun value => base.toDigits value = text

section Base

variable {base value : Nat} {text : List Char}

theorem readFrom_append (before after : List Char) : readFrom base value (before ++ after) =
      (readFrom base value before).bind fun mid => readFrom base mid after := by
  induction before generalizing value with
  | nil => rfl
  | cons symbol before ih =>
    rw [List.cons_append, readFrom, readFrom]
    split
    · rfl
    · exact ih

theorem readFrom_toDigits (wide : 1 < base) (narrow : base ≤ 16) (value : Nat) :
    readFrom base 0 (base.toDigits value) = some value := by
  induction value using Nat.strong_induction_on with
  | _ value ih =>
    rw [Nat.toDigits_eq_if wide]
    split
    · next small =>
      rw [readFrom, digit_digitChar narrow small]
      simp [readFrom]
    next large =>
    have lower : value % base < base := Nat.mod_lt _ (by omega)
    have less : value / base < value := Nat.div_lt_self (by omega) wide
    rw [readFrom_append, ih _ less, Option.bind_some, readFrom, digit_digitChar narrow lower]
    exact congrArg some (Nat.div_add_mod' value base)

theorem read_toDigits (wide : 1 < base) (narrow : base ≤ 16) (value : Nat) :
    read base (base.toDigits value) = some value := by
  rw [read, if_neg Nat.toDigits_ne_nil, readFrom_toDigits wide narrow]

theorem readPlain_toDigits (wide : 1 < base) (narrow : base ≤ 16) (value : Nat) :
    readPlain base (base.toDigits value) = some value := by
  simp [readPlain, read_toDigits wide narrow]

theorem readPlain_eq_some (found : readPlain base text = some value) :
    text = base.toDigits value := by
  obtain ⟨-, same⟩ := Option.filter_eq_some_iff.mp found
  simpa using Eq.symm (of_decide_eq_true same)

theorem isDigit_of_readFrom {start : Nat} (found : readFrom base start text = some value) :
    ∀ symbol ∈ text, isDigit base symbol = true := by
  induction text generalizing start with
  | nil => exact fun _ => nofun
  | cons first rest ih =>
    rw [readFrom] at found
    split at found
    · cases found
    next next known =>
    intro symbol member
    rcases List.mem_cons.mp member with rfl | later
    · rw [isDigit, known]
      rfl
    · exact ih found symbol later

theorem exists_readFrom {start : Nat} (each : ∀ symbol ∈ text, isDigit base symbol = true) :
    ∃ value, readFrom base start text = some value := by
  induction text generalizing start with
  | nil => exact ⟨start, rfl⟩
  | cons first rest ih =>
    obtain ⟨next, known⟩ := Option.isSome_iff_exists.mp (each first List.mem_cons_self)
    rw [readFrom, known]
    exact ih fun symbol member => each symbol (List.mem_cons_of_mem _ member)

theorem isDigit_mono {wider : Nat} (le : base ≤ wider) {symbol : Char}
    (known : isDigit base symbol = true) : isDigit wider symbol = true := by
  obtain ⟨value, found⟩ := Option.isSome_iff_exists.mp known
  obtain ⟨read, small⟩ := Option.filter_eq_some_iff.mp found
  have less : value < base := of_decide_eq_true small
  refine Option.isSome_iff_exists.mpr ⟨value, Option.filter_eq_some_iff.mpr ⟨read, ?_⟩⟩
  exact decide_eq_true (less.trans_le le)

theorem isDigit_of_toDigits (wide : 1 < base) (narrow : base ≤ 16) {symbol : Char}
    (member : symbol ∈ base.toDigits value) : isDigit base symbol = true :=
  isDigit_of_readFrom (readFrom_toDigits wide narrow value) symbol member

end Base

/-- `hex.EncodeToString` -/
def encodePairs (bytes : List UInt8) : List Char :=
  bytes.flatMap fun byte => [(byte.toNat / 16).digitChar, (byte.toNat % 16).digitChar]

/-- `hex.DecodeString` -/
def decodePairs : List Char → Option (List UInt8)
  | [] => some []
  | [_] => none
  | high :: low :: rest => do
      let upper ← digit 16 high
      let lower ← digit 16 low
      return UInt8.ofNat (16 * upper + lower) :: (← decodePairs rest)

theorem decodePairs_encodePairs (bytes : List UInt8) :
    decodePairs (encodePairs bytes) = some bytes := by
  induction bytes with
  | nil => rfl
  | cons byte rest ih =>
    have small := byte.toNat_lt
    have upper : digit 16 (byte.toNat / 16).digitChar = some (byte.toNat / 16) :=
      digit_digitChar (Nat.le_refl 16) (by omega)
    have lower : digit 16 (byte.toNat % 16).digitChar = some (byte.toNat % 16) :=
      digit_digitChar (Nat.le_refl 16) (by omega)
    have whole : UInt8.ofNat (16 * (byte.toNat / 16) + byte.toNat % 16) = byte := by
      rw [Nat.div_add_mod, UInt8.ofNat_toNat]
    rw [encodePairs] at ih
    rw [encodePairs, List.flatMap_cons, List.cons_append, List.cons_append, List.nil_append,
      decodePairs, upper, lower, ih]
    exact congrArg (fun first => some (first :: rest)) whole

theorem length_encodePairs (bytes : List UInt8) :
    (encodePairs bytes).length = 2 * bytes.length := by
  induction bytes with
  | nil => rfl
  | cons byte rest ih =>
    rw [encodePairs] at ih ⊢
    rw [List.flatMap_cons, List.length_append, ih]
    exact (Nat.add_comm 2 _).trans (Nat.mul_succ 2 _).symm

end Numeral
