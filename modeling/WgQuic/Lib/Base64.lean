import Mathlib.Data.Char
import Mathlib.Data.List.Basic

/-!
# Base64 texts

Padded base64 as a decoder reads it.  Line breaks are skipped wherever they
stand.  A strict decoder also refuses a last quantum with bits that no byte
takes up, and then a text without line breaks is the only one for its bytes.
-/

namespace Base64

def sextet (symbol : Char) : Option Nat :=
  if 65 ≤ symbol.toNat ∧ symbol.toNat ≤ 90 then some (symbol.toNat - 65)
  else if 97 ≤ symbol.toNat ∧ symbol.toNat ≤ 122 then some (symbol.toNat - 71)
  else if 48 ≤ symbol.toNat ∧ symbol.toNat ≤ 57 then some (symbol.toNat + 4)
  else if symbol.toNat = 43 then some 62
  else if symbol.toNat = 47 then some 63
  else none

def symbol (value : Nat) : Char :=
  if value < 26 then Char.ofNat (value + 65)
  else if value < 52 then Char.ofNat (value + 71)
  else if value < 62 then Char.ofNat (value - 4)
  else if value = 62 then Char.ofNat 43
  else Char.ofNat 47

/-- The number that four symbols spell. -/
def quantum (first second third fourth : Nat) : Nat :=
  ((first * 64 + second) * 64 + third) * 64 + fourth

/-- The first byte of a number of three bytes, the second and the third. -/
def byte0 (value : Nat) : UInt8 := UInt8.ofNat (value / 65536)
def byte1 (value : Nat) : UInt8 := UInt8.ofNat (value / 256)
def byte2 (value : Nat) : UInt8 := UInt8.ofNat value

def decodeQuanta (strict : Bool) : List Char → Option (List UInt8)
  | [] => some []
  | first :: second :: third :: fourth :: rest =>
    if third = '=' then
      if fourth = '=' ∧ rest = [] then do
        let value := quantum (← sextet first) (← sextet second) 0 0
        if strict ∧ value % 65536 ≠ 0 then none
        else some [byte0 value]
      else none
    else if fourth = '=' then
      if rest = [] then do
        let value := quantum (← sextet first) (← sextet second) (← sextet third) 0
        if strict ∧ value % 256 ≠ 0 then none
        else some [byte0 value, byte1 value]
      else none
    else do
      let value := quantum (← sextet first) (← sextet second) (← sextet third)
        (← sextet fourth)
      let bytes ← decodeQuanta strict rest
      return byte0 value :: byte1 value :: byte2 value :: bytes
  | _ => none

def isLineBreak (symbol : Char) : Bool :=
  symbol = '\r' ∨ symbol = '\n'

def decode (strict : Bool) (text : String) : Option (List UInt8) :=
  decodeQuanta strict (text.toList.filter fun symbol => !isLineBreak symbol)

/-- The text of a number of three bytes. -/
def symbols (value : Nat) : List Char :=
  [symbol (value / 262144), symbol (value / 4096 % 64), symbol (value / 64 % 64),
    symbol (value % 64)]

def encode : List UInt8 → List Char
  | [] => []
  | [first] => (symbols (first.toNat * 65536)).take 2 ++ ['=', '=']
  | [first, second] =>
    (symbols (first.toNat * 65536 + second.toNat * 256)).take 3 ++ ['=']
  | first :: second :: third :: rest =>
    symbols (first.toNat * 65536 + second.toNat * 256 + third.toNat) ++ encode rest

theorem symbol_sextet {char : Char} {value : Nat} (found : sextet char = some value) :
    symbol value = char ∧ value < 64 := by
  unfold sextet at found
  split at found
  · next upper =>
    cases found
    rw [symbol, if_pos (by omega), show char.toNat - 65 + 65 = char.toNat by omega]
    exact ⟨Char.ofNat_toNat char, by omega⟩
  split at found
  · next lower =>
    cases found
    rw [symbol, if_neg (by omega), if_pos (by omega),
      show char.toNat - 71 + 71 = char.toNat by omega]
    exact ⟨Char.ofNat_toNat char, by omega⟩
  split at found
  · next digit =>
    cases found
    rw [symbol, if_neg (by omega), if_neg (by omega), if_pos (by omega)]
    exact ⟨Char.ofNat_toNat char, by omega⟩
  split at found
  · next plus =>
    cases found
    refine ⟨?_, by omega⟩
    rw [← Char.ofNat_toNat char, plus]
    rfl
  split at found
  · next slash =>
    cases found
    refine ⟨?_, by omega⟩
    rw [← Char.ofNat_toNat char, slash]
    rfl
  · cases found

section Quantum

variable {first second third fourth : Nat}

section

variable (small : first < 64 ∧ second < 64 ∧ third < 64 ∧ fourth < 64)

include small

theorem symbols_quantum : symbols (quantum first second third fourth) =
      [symbol first, symbol second, symbol third, symbol fourth] := by
  unfold symbols quantum
  congr 1
  · congr 1; omega
  congr 1
  · congr 1; omega
  congr 1
  · congr 1; omega
  congr 1
  congr 1; omega

theorem quantum_lt : quantum first second third fourth < 16777216 := by
  unfold quantum
  omega

end

theorem bytes_toNat {value : Nat} (small : value < 16777216) :
    (byte0 value).toNat = value / 65536 ∧ (byte1 value).toNat = value / 256 % 256 ∧
      (byte2 value).toNat = value % 256 := by
  simp only [byte0, byte1, byte2, UInt8.toNat_ofNat', Nat.reducePow, and_true]
  omega

end Quantum

variable {bytes : List UInt8}

/-- A strictly decoded text is the encoding of its bytes, and no decoder refuses it. -/
theorem of_decodeQuanta_strict {text : List Char} (decoded : decodeQuanta true text = some bytes) :
    encode bytes = text ∧ decodeQuanta false text = some bytes := by
  induction text using decodeQuanta.induct generalizing bytes with
  | case1 =>
    cases decoded
    exact ⟨rfl, rfl⟩
  | case2 first second fourth rest last =>
    obtain ⟨rfl, rfl⟩ := last
    simp only [decodeQuanta, ↓reduceIte, and_self, Option.bind_eq_bind,
      Option.bind_eq_some_iff] at decoded ⊢
    obtain ⟨a, foundA, b, foundB, decoded⟩ := decoded
    split at decoded
    · cases decoded
    next whole =>
      cases decoded
      obtain ⟨symbolA, smallA⟩ := symbol_sextet foundA
      obtain ⟨symbolB, smallB⟩ := symbol_sextet foundB
      have small : a < 64 ∧ b < 64 ∧ 0 < 64 ∧ 0 < 64 := ⟨smallA, smallB, by omega, by omega⟩
      have same : (byte0 (quantum a b 0 0)).toNat * 65536 = quantum a b 0 0 := by
        have bytes := bytes_toNat (quantum_lt small)
        simp only [true_and, Decidable.not_not] at whole
        omega
      refine ⟨?_, a, foundA, b, foundB, by simp⟩
      rw [encode, same, symbols_quantum small, symbolA, symbolB]
      rfl
  | case3 first second fourth rest last =>
    simp [decodeQuanta, last] at decoded
  | case4 first second third notPad =>
    simp only [decodeQuanta, notPad, ↓reduceIte, Option.bind_eq_bind,
      Option.bind_eq_some_iff] at decoded ⊢
    obtain ⟨a, foundA, b, foundB, c, foundC, decoded⟩ := decoded
    split at decoded
    · cases decoded
    next whole =>
      cases decoded
      obtain ⟨symbolA, smallA⟩ := symbol_sextet foundA
      obtain ⟨symbolB, smallB⟩ := symbol_sextet foundB
      obtain ⟨symbolC, smallC⟩ := symbol_sextet foundC
      have small : a < 64 ∧ b < 64 ∧ c < 64 ∧ 0 < 64 := ⟨smallA, smallB, smallC, by omega⟩
      have same : (byte0 (quantum a b c 0)).toNat * 65536 +
          (byte1 (quantum a b c 0)).toNat * 256 = quantum a b c 0 := by
        have bytes := bytes_toNat (quantum_lt small)
        simp only [true_and, Decidable.not_not] at whole
        omega
      refine ⟨?_, a, foundA, b, foundB, c, foundC, by simp⟩
      rw [encode, same, symbols_quantum small, symbolA, symbolB, symbolC]
      rfl
  | case5 first second third rest notPad more =>
    simp [decodeQuanta, notPad, more] at decoded
  | case6 first second third fourth rest notPad notLast ih =>
    simp only [decodeQuanta, notPad, notLast, ↓reduceIte, Option.bind_eq_bind,
      Option.bind_eq_some_iff] at decoded ⊢
    obtain ⟨a, foundA, b, foundB, c, foundC, d, foundD, later, decodedRest, decoded⟩ := decoded
    cases decoded
    obtain ⟨symbolA, smallA⟩ := symbol_sextet foundA
    obtain ⟨symbolB, smallB⟩ := symbol_sextet foundB
    obtain ⟨symbolC, smallC⟩ := symbol_sextet foundC
    obtain ⟨symbolD, smallD⟩ := symbol_sextet foundD
    have small : a < 64 ∧ b < 64 ∧ c < 64 ∧ d < 64 := ⟨smallA, smallB, smallC, smallD⟩
    have same : (byte0 (quantum a b c d)).toNat * 65536 +
        (byte1 (quantum a b c d)).toNat * 256 + (byte2 (quantum a b c d)).toNat =
        quantum a b c d := by
      have bytes := bytes_toNat (quantum_lt small)
      omega
    obtain ⟨encoded, accepted⟩ := ih decodedRest
    refine ⟨?_, a, foundA, b, foundB, c, foundC, d, foundD, later, accepted, rfl⟩
    rw [encode, same, symbols_quantum small, symbolA, symbolB, symbolC, symbolD, encoded]
    rfl
  | case7 text notEmpty notFour =>
    rw [decodeQuanta] at decoded
    · cases decoded
    · exact notEmpty
    · exact notFour

/-- What a strict decoder accepts, every decoder accepts. -/
theorem decode_of_strict {text : String} (decoded : decode true text = some bytes) :
    decode false text = some bytes :=
  (of_decodeQuanta_strict decoded).2

/-- A text without line breaks is the only one for its bytes. -/
theorem eq_of_decode {left right : String} (decodedLeft : decode true left = some bytes)
    (decodedRight : decode true right = some bytes)
    (plainLeft : ∀ symbol ∈ left.toList, isLineBreak symbol = false)
    (plainRight : ∀ symbol ∈ right.toList, isLineBreak symbol = false) : left = right := by
  have unbroken : ∀ text : String, (∀ symbol ∈ text.toList, isLineBreak symbol = false) →
      (text.toList.filter fun symbol => !isLineBreak symbol) = text.toList := by
    intro text plain
    rw [List.filter_eq_self]
    intro symbol listed
    rw [plain symbol listed]
    rfl
  rw [decode, unbroken left plainLeft] at decodedLeft
  rw [decode, unbroken right plainRight] at decodedRight
  apply String.toList_injective
  rw [← (of_decodeQuanta_strict decodedLeft).1, (of_decodeQuanta_strict decodedRight).1]

end Base64
