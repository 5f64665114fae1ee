import Mathlib.Data.BitVec

/-!
# Network addresses

The values of Go's `netip.Addr` and `netip.Prefix`, and texts that hold one.
A text is kept as the value it renders: rendering is injective and parsing
inverts it, and any other text fails to parse.
-/

namespace WgQuic.Net

/-- `netip.Addr` without its invalid zero value. -/
inductive Addr where
  | v4 (bits : BitVec 32)
  | v6 (bits : BitVec 128) (zone : List Char)
deriving DecidableEq, Repr

namespace Addr

def is4 : Addr → Bool
  | .v4 _ => true
  | .v6 _ _ => false

def withoutZone : Addr → Addr
  | .v4 bits => .v4 bits
  | .v6 bits _ => .v6 bits []

/-- An IPv4-mapped IPv6 address becomes the IPv4 address it maps. -/
def unmap : Addr → Addr
  | .v4 bits => .v4 bits
  | .v6 bits zone =>
    if bits.extractLsb' 32 96 = 0xffff#96 then .v4 (bits.extractLsb' 0 32)
    else .v6 bits zone

theorem unmap_unmap (addr : Addr) : addr.unmap.unmap = addr.unmap := by
  cases addr with
  | v4 bits => rfl
  | v6 bits zone =>
    by_cases mapped : bits.extractLsb' 32 96 = 0xffff#96
    · simp [unmap, mapped]
    · simp [unmap, mapped]

end Addr

/-- `netip.Prefix`; `prefixFrom` drops the zone, as the library does. -/
structure Prefix where
  addr : Addr
  bits : Nat
deriving DecidableEq, Repr

def prefixFrom (addr : Addr) (bits : Nat) : Prefix :=
  ⟨addr.withoutZone, bits⟩

/-- A text in a place where an `α` is written. -/
inductive Rendered (α : Type) where
  | of (value : α)
  | other (text : List Char)
deriving DecidableEq, Repr

def Rendered.parse {α : Type} : Rendered α → Option α
  | .of value => some value
  | .other _ => none

@[simp]
theorem Rendered.parse_of {α : Type} (value : α) : (Rendered.of value).parse = some value :=
  rfl

end WgQuic.Net
