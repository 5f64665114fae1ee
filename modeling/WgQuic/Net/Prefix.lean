import WgQuic.Net.Address

/-!
# Prefixes

Validity, masking and the canonical order of `netip.Prefix`, and the text of a
prefix in a file.
-/

namespace WgQuic.Net

namespace Addr

def bitLen : Addr → Nat
  | .v4 _ => 32
  | .v6 _ _ => 128

/-- The address with only its first `bits` bits. -/
def mask (bits : Nat) : Addr → Addr
  | .v4 value => .v4 ((value >>> (32 - bits)) <<< (32 - bits))
  | .v6 value zone => .v6 ((value >>> (128 - bits)) <<< (128 - bits)) zone

/-- `Compare`, for addresses without a zone. -/
def compare : Addr → Addr → Ordering
  | .v4 left, .v4 right => Ord.compare left.toNat right.toNat
  | .v4 _, .v6 _ _ => .lt
  | .v6 _ _, .v4 _ => .gt
  | .v6 left _, .v6 right _ => Ord.compare left.toNat right.toNat

theorem shift_shift {w : Nat} (value : BitVec w) (n : Nat) :
    (((value >>> n) <<< n) >>> n) <<< n = (value >>> n) <<< n := by
  apply BitVec.eq_of_getElem_eq
  intro i bound
  by_cases low : i < n
  · simp [low]
  · have sum : n + (i - n) = i := by omega
    simp [low, sum, bound]

theorem mask_mask (bits : Nat) (addr : Addr) : (addr.mask bits).mask bits = addr.mask bits := by
  cases addr with
  | v4 value => exact congrArg Addr.v4 (shift_shift value _)
  | v6 value zone => exact congrArg (Addr.v6 · zone) (shift_shift value _)

@[simp] theorem mask_bitLen (bits : Nat) (addr : Addr) : (addr.mask bits).bitLen = addr.bitLen := by
  cases addr <;> rfl

end Addr

namespace Prefix

/-- A value outside these bounds is the invalid prefix. -/
def isValid (owned : Prefix) : Bool :=
  owned.bits ≤ owned.addr.bitLen

def masked (owned : Prefix) : Prefix :=
  { owned with addr := owned.addr.mask owned.bits }

@[simp] theorem masked_masked (owned : Prefix) : owned.masked.masked = owned.masked := by
  rw [masked, masked, Addr.mask_mask]

@[simp] theorem masked_isValid (owned : Prefix) : owned.masked.isValid = owned.isValid := by
  simp [masked, isValid]

/-- The order of `canonicalRoutePlanPrefixes` and `comparePrefixes`: IPv4 first,
then shorter prefixes, then addresses. -/
def compare (left right : Prefix) : Ordering :=
  if left.addr.is4 ≠ right.addr.is4 then
    if left.addr.is4 then .lt else .gt
  else if left.bits ≠ right.bits then Ord.compare left.bits right.bits
  else left.addr.compare right.addr

def le (left right : Prefix) : Bool :=
  left.compare right ≠ .gt

def sort (prefixes : List Prefix) : List Prefix :=
  prefixes.mergeSort le

theorem sort_perm (prefixes : List Prefix) : (sort prefixes).Perm prefixes :=
  List.mergeSort_perm _ _

/-- A text is the rendering of a prefix; the invalid prefix has none that
parses. -/
def parse (text : Rendered Prefix) : Option Prefix :=
  text.parse.filter isValid

theorem parse_of {owned : Prefix} (valid : owned.isValid = true) :
    parse (.of owned) = some owned := by
  simp [parse, valid]

end Prefix

end WgQuic.Net
