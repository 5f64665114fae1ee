import Mathlib.Data.List.DropRight
import Mathlib.Data.Char

/-!
# Texts as lists of symbols

Trimming, cutting and splitting of texts, and a change of letter case that is
only known to be the usual one on ASCII.
-/

namespace Strings

def isSpace (symbol : Char) : Bool :=
  let code := symbol.toNat
  (9 ≤ code && code ≤ 13) || code == 0x20 || code == 0x85 || code == 0xa0 ||
    code == 0x1680 || (0x2000 ≤ code && code ≤ 0x200a) || code == 0x2028 ||
    code == 0x2029 || code == 0x202f || code == 0x205f || code == 0x3000

def trimSpace (text : List Char) : List Char :=
  (text.dropWhile isSpace).rdropWhile isSpace

/-- There is no space at either end. -/
structure Trimmed (text : List Char) : Prop where
  head : ∀ symbol, text.head? = some symbol → isSpace symbol = false
  last : ∀ symbol, text.getLast? = some symbol → isSpace symbol = false

theorem Trimmed.trimSpace {text : List Char} (trimmed : Trimmed text) : trimSpace text = text := by
  cases text with
  | nil => rfl
  | cons symbol rest =>
    have filled : isSpace symbol = false := trimmed.head symbol rfl
    have started : (symbol :: rest).dropWhile isSpace = symbol :: rest := by
      rw [List.dropWhile_cons, filled]
      rfl
    rw [Strings.trimSpace, started]
    refine List.rdropWhile_eq_self_iff.mpr fun nonempty => ?_
    rw [trimmed.last _ (List.getLast?_eq_some_getLast nonempty)]
    exact Bool.false_ne_true

theorem trimmed_trimSpace (text : List Char) : Trimmed (trimSpace text) := by
  constructor
  · intro symbol first
    have part : trimSpace text <+: text.dropWhile isSpace := List.rdropWhile_prefix _ _
    have same : (text.dropWhile isSpace).head? = some symbol := by
      obtain ⟨after, whole⟩ := part
      rw [← whole, List.head?_append, first]
      rfl
    have kept := List.head?_dropWhile_not isSpace text
    rw [same] at kept
    exact kept
  · intro symbol final
    have filled : trimSpace text ≠ [] := by
      intro empty
      rw [empty] at final
      cases final
    have kept := List.rdropWhile_last_not isSpace (text.dropWhile isSpace) filled
    rw [List.getLast?_eq_some_getLast filled] at final
    cases final
    exact Bool.eq_false_iff.mpr kept

theorem trimmed_of_forall {text : List Char} (each : ∀ symbol ∈ text, isSpace symbol = false) :
    Trimmed text :=
  ⟨fun symbol first => each symbol (List.mem_of_head? first),
    fun symbol final => each symbol (List.mem_of_getLast? final)⟩

/-- What stands before the first `mark`, and what stands after it. -/
def cut (mark : Char) : List Char → Option (List Char × List Char)
  | [] => none
  | symbol :: rest =>
    if symbol = mark then some ([], rest)
    else (cut mark rest).map fun (before, after) => (symbol :: before, after)

/-- What stands before the last `mark`, and what stands after it. -/
def cutLast (mark : Char) (text : List Char) : Option (List Char × List Char) :=
  (cut mark text.reverse).map fun (after, before) => (before.reverse, after.reverse)

section Cut

variable {mark : Char} {text before after : List Char}

theorem cut_append (unmarked : mark ∉ before) :
    cut mark (before ++ mark :: after) = some (before, after) := by
  induction before with
  | nil => simp [cut]
  | cons symbol before ih =>
    obtain ⟨different, rest⟩ := not_or.mp (List.mem_cons.not.mp unmarked)
    simp [cut, ih rest, Ne.symm different]

theorem cut_eq_some (found : cut mark text = some (before, after)) :
    text = before ++ mark :: after ∧ mark ∉ before := by
  induction text generalizing before with
  | nil => cases found
  | cons symbol rest ih =>
    rw [cut] at found
    split at found
    · next same =>
      cases found
      exact ⟨by rw [same]; rfl, List.not_mem_nil⟩
    next different =>
    obtain ⟨⟨front, back⟩, inner, shape⟩ := Option.map_eq_some_iff.mp found
    cases shape
    obtain ⟨rfl, unmarked⟩ := ih inner
    exact ⟨rfl, List.mem_cons.not.mpr (not_or.mpr ⟨Ne.symm different, unmarked⟩)⟩

theorem cut_eq_none : cut mark text = none ↔ mark ∉ text := by
  induction text with
  | nil => simp [cut]
  | cons symbol rest ih =>
    rw [cut]
    split
    · next same => simp [same]
    · next different => simp [ih, Ne.symm different]

theorem cutLast_append (unmarked : mark ∉ after) :
    cutLast mark (before ++ mark :: after) = some (before, after) := by
  have flipped : (before ++ mark :: after).reverse = after.reverse ++ mark :: before.reverse := by
    simp
  rw [cutLast, flipped, cut_append (by simpa using unmarked)]
  simp

theorem cutLast_eq_some (found : cutLast mark text = some (before, after)) :
    text = before ++ mark :: after ∧ mark ∉ after := by
  obtain ⟨⟨back, front⟩, inner, shape⟩ := Option.map_eq_some_iff.mp found
  cases shape
  obtain ⟨flipped, unmarked⟩ := cut_eq_some inner
  refine ⟨?_, by simpa using unmarked⟩
  rw [← List.reverse_reverse text, flipped]
  simp

end Cut

/-- The runs of symbols between spaces. -/
def fields (text : List Char) : List (List Char) :=
  (text.splitOnP isSpace).filter (· ≠ [])

/-- `text` without `ending`, if it ends so. -/
def trimSuffix (ending text : List Char) : List Char :=
  if ending.isSuffixOf text then text.take (text.length - ending.length) else text

structure LowerCase where
  lower : Char → Char
  ascii : ∀ symbol, symbol.toNat < 128 → lower symbol = symbol.toLower
  settles : ∀ symbol, lower (lower symbol) = lower symbol
  spaces : ∀ symbol, isSpace (lower symbol) = isSpace symbol

def LowerCase.text (letters : LowerCase) (text : List Char) : List Char :=
  text.map letters.lower

theorem LowerCase.trimmed (letters : LowerCase) {text : List Char} (trimmed : Trimmed text) :
    Trimmed (letters.text text) := by
  constructor
  · intro symbol first
    rw [LowerCase.text, List.head?_map] at first
    obtain ⟨upper, known, rfl⟩ := Option.map_eq_some_iff.mp first
    rw [letters.spaces]
    exact trimmed.head upper known
  · intro symbol final
    rw [LowerCase.text, List.getLast?_map] at final
    obtain ⟨upper, known, rfl⟩ := Option.map_eq_some_iff.mp final
    rw [letters.spaces]
    exact trimmed.last upper known

variable {symbol : Char}

theorem upper_iff :
    symbol.val ≥ 'A'.val ∧ symbol.val ≤ 'Z'.val ↔ 65 ≤ symbol.toNat ∧ symbol.toNat ≤ 90 :=
  Iff.rfl

theorem toLower_of_upper (upper : 65 ≤ symbol.toNat ∧ symbol.toNat ≤ 90) :
    symbol.toLower.toNat = symbol.toNat + 32 := by
  rw [show symbol.toLower = _ from dif_pos (upper_iff.mpr upper)]
  change (symbol.val.toNat + 32) % 2 ^ 32 = symbol.val.toNat + 32
  have bound : symbol.val.toNat ≤ 90 := upper.2
  omega

theorem toLower_of_not_upper
    (other : ¬(65 ≤ symbol.toNat ∧ symbol.toNat ≤ 90)) : symbol.toLower = symbol :=
  dif_neg (upper_iff.not.mpr other)

/-- The map that only knows ASCII. -/
def LowerCase.plain : LowerCase where
  lower := Char.toLower
  ascii := fun _ _ => rfl
  settles := by
    intro symbol
    by_cases upper : 65 ≤ symbol.toNat ∧ symbol.toNat ≤ 90
    · refine toLower_of_not_upper ?_
      rw [toLower_of_upper upper]
      omega
    · rw [toLower_of_not_upper upper, toLower_of_not_upper upper]
  spaces := by
    intro symbol
    by_cases upper : 65 ≤ symbol.toNat ∧ symbol.toNat ≤ 90
    · have small := toLower_of_upper upper
      rw [Bool.eq_iff_iff]
      simp only [isSpace, Bool.or_eq_true, Bool.and_eq_true, decide_eq_true_eq, beq_iff_eq]
      omega
    · rw [toLower_of_not_upper upper]

end Strings
