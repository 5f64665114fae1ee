import Mathlib.Algebra.Group.Nat.Defs
import Mathlib.Data.List.Induction

/-!
# FEC record format

The `WGQF` records exchanged by the two FEC directions.  Fixed-width header
fields are natural numbers here and are truncated to their width when they
are written, so a record survives the wire exactly when its fields fit.
-/

namespace WgQuic.Fec

open List

abbrev Bytes := List UInt8

def headerSize : Nat := 24
def defaultDataShards : Nat := 8
def maxDataShards : Nat := 32
def maxParityShards : Nat := 8
def maxFrameSize : Nat := 4096
def maxInterleave : Nat := 4
def healthyProbeFrames : Nat := 4096

def magic : Bytes := [0x57, 0x47, 0x51, 0x46]

inductive Kind where
  | data
  | parity
  | close
  | feedback
deriving DecidableEq, Repr

def Kind.toByte : Kind → UInt8
  | .data => 0
  | .parity => 1
  | .close => 2
  | .feedback => 3

def Kind.ofByte? (value : UInt8) : Option Kind :=
  if value = 0 then some .data
  else if value = 1 then some .parity
  else if value = 2 then some .close
  else if value = 3 then some .feedback
  else none

@[simp] theorem Kind.ofByte?_toByte (kind : Kind) : Kind.ofByte? kind.toByte = some kind := by
  cases kind <;> rfl

structure Packet where
  kind : Kind
  epoch : Nat := 0
  groupID : Nat := 0
  index : Nat := 0
  k : Nat := 0
  r : Nat := 0
  payload : Bytes := []
deriving DecidableEq, Repr

def putUint16 (value : Nat) : Bytes :=
  [UInt8.ofNat (value / 256), UInt8.ofNat value]

def putUint64 (value : Nat) : Bytes :=
  [UInt8.ofNat (value / 2 ^ 56), UInt8.ofNat (value / 2 ^ 48),
    UInt8.ofNat (value / 2 ^ 40), UInt8.ofNat (value / 2 ^ 32),
    UInt8.ofNat (value / 2 ^ 24), UInt8.ofNat (value / 2 ^ 16),
    UInt8.ofNat (value / 2 ^ 8), UInt8.ofNat value]

/-- The unsigned big-endian value of a byte string; `binary.BigEndian` reads
the two- and eight-byte slices of the header through it. -/
def bigEndian (bytes : Bytes) : Nat :=
  bytes.foldl (fun total byte => total * 256 + byte.toNat) 0

@[simp] theorem putUint16_length (value : Nat) : (putUint16 value).length = 2 := rfl

@[simp] theorem putUint64_length (value : Nat) : (putUint64 value).length = 8 := rfl

theorem bigEndian_putUint16 (value : Nat) : bigEndian (putUint16 value) = value % 2 ^ 16 := by
  simp only [bigEndian, putUint16, foldl_cons, foldl_nil, UInt8.toNat_ofNat']
  omega

theorem bigEndian_putUint64 (value : Nat) : bigEndian (putUint64 value) = value % 2 ^ 64 := by
  simp only [bigEndian, putUint64, foldl_cons, foldl_nil, UInt8.toNat_ofNat']
  omega

theorem bigEndian_lt (bytes : Bytes) : bigEndian bytes < 256 ^ bytes.length := by
  induction bytes using List.reverseRecOn with
  | nil => exact Nat.one_pos
  | append_singleton bytes byte ih =>
    have small : byte.toNat < 256 := byte.toNat_lt
    rw [bigEndian, foldl_append, length_append, length_singleton]
    simp only [foldl_cons, foldl_nil]
    rw [bigEndian] at ih
    omega

/-- A field of a slice is no wider than the slice. -/
theorem bigEndian_take_lt (bytes : Bytes) (width : Nat) :
    bigEndian (bytes.take width) < 256 ^ width :=
  Nat.lt_of_lt_of_le (bigEndian_lt _) (Nat.pow_le_pow_right (by decide) (length_take_le _ _))

variable {bytes : Bytes}

theorem slice_append {start width next : Nat} (adjacent : start + width = next) :
    (bytes.drop start).take width ++ bytes.drop next = bytes.drop start := by
  rw [← adjacent, ← drop_drop, take_append_drop]

theorem getD_field {start : Nat} (inside : start < bytes.length) :
    [bytes.getD start 0] = (bytes.drop start).take 1 := by
  rw [drop_eq_getElem_cons inside, take_succ_cons, take_zero,
    getD_eq_getElem?_getD, getElem?_eq_getElem inside, Option.getD_some]

/-- The low bytes of a number, most significant first. -/
def putBytes : Nat → Nat → Bytes
  | 0, _ => []
  | width + 1, value => putBytes width (value / 256) ++ [UInt8.ofNat value]

theorem putUint16_eq (value : Nat) : putUint16 value = putBytes 2 value := rfl

theorem putUint64_eq (value : Nat) : putUint64 value = putBytes 8 value := by
  simp [putBytes, putUint64, Nat.div_div_eq_div_mul]

theorem putBytes_bigEndian (bytes : Bytes) : putBytes bytes.length (bigEndian bytes) = bytes := by
  induction bytes using List.reverseRecOn with
  | nil => rfl
  | append_singleton bytes byte ih =>
    have small := byte.toNat_lt
    have value : bigEndian (bytes ++ [byte]) = bigEndian bytes * 256 + byte.toNat := by
      simp [bigEndian]
    have high : (bigEndian bytes * 256 + byte.toNat) / 256 = bigEndian bytes := by omega
    have low : UInt8.ofNat (bigEndian bytes * 256 + byte.toNat) = byte := by
      apply UInt8.toNat.inj
      rw [UInt8.toNat_ofNat']
      omega
    rw [length_append, length_singleton, putBytes, value, high, low, ih]

/-- A field that is read is written as it stands. -/
theorem putBytes_field {start width : Nat} (inside : start + width ≤ bytes.length) :
    putBytes width (bigEndian ((bytes.drop start).take width)) = (bytes.drop start).take width := by
  have length : ((bytes.drop start).take width).length = width := by
    rw [length_take, length_drop]
    omega
  have written := putBytes_bigEndian ((bytes.drop start).take width)
  rwa [length] at written

def marshalPacket (p : Packet) : Bytes :=
  magic ++ [1, p.kind.toByte] ++ putUint16 p.epoch ++ putUint64 p.groupID ++
    putUint16 p.index ++ putUint16 p.k ++ putUint16 p.r ++
    putUint16 p.payload.length ++ p.payload

/-- `parsePacket`: `ok none` is a datagram without the magic, which the
caller treats as not handled; an error is only ever reported for a handled
datagram. -/
def parsePacket (data : Bytes) : Except String (Option Packet) :=
  if data.length < 4 ∨ data.take 4 ≠ magic then .ok none
  else if data.length < headerSize then
    .error "FEC packet is shorter than its header"
  else if data.getD 4 0 ≠ 1 then .error "unsupported FEC wire version"
  else
    match Kind.ofByte? (data.getD 5 0) with
    | none => .error "unknown FEC packet kind"
    | some kind =>
      let payloadLen := bigEndian ((data.drop 22).take 2)
      if payloadLen ≠ data.length - headerSize then
        .error "FEC payload length mismatch"
      else if payloadLen > maxFrameSize + 2 then
        .error "FEC payload exceeds the receiver limit"
      else
        .ok (some {
          kind := kind
          epoch := bigEndian ((data.drop 6).take 2)
          groupID := bigEndian ((data.drop 8).take 8)
          index := bigEndian ((data.drop 16).take 2)
          k := bigEndian ((data.drop 18).take 2)
          r := bigEndian ((data.drop 20).take 2)
          payload := data.drop headerSize })

/-- Header fields that fit their wire width and a payload the receiver
accepts. -/
structure Packet.Fits (p : Packet) : Prop where
  epoch : p.epoch < 2 ^ 16
  groupID : p.groupID < 2 ^ 64
  index : p.index < 2 ^ 16
  k : p.k < 2 ^ 16
  r : p.r < 2 ^ 16
  payload : p.payload.length ≤ maxFrameSize + 2

theorem Kind.toByte_of_ofByte? {value : UInt8} {kind : Kind}
    (known : Kind.ofByte? value = some kind) : kind.toByte = value := by
  unfold Kind.ofByte? at known
  repeat' split at known
  all_goals
    cases known
    try exact Eq.symm ‹_›

/-- What is accepted fits, and is what would be written for it. -/
theorem parsePacket_ok {datagram : Bytes} {p : Packet}
    (parsed : parsePacket datagram = .ok (some p)) : p.Fits ∧ marshalPacket p = datagram := by
  unfold parsePacket at parsed
  split at parsed
  · cases parsed
  next marked =>
  split at parsed
  · cases parsed
  next long =>
  split at parsed
  · cases parsed
  next version =>
  split at parsed
  · cases parsed
  next kind known =>
  dsimp only at parsed
  split at parsed
  · cases parsed
  next length =>
  split at parsed
  · cases parsed
  next short =>
  cases parsed
  rw [not_or, not_not] at marked
  rw [not_not] at version length
  have long : 24 ≤ datagram.length := Nat.le_of_not_lt long
  refine ⟨⟨bigEndian_take_lt _ 2, bigEndian_take_lt _ 8, bigEndian_take_lt _ 2,
    bigEndian_take_lt _ 2, bigEndian_take_lt _ 2, ?_⟩, ?_⟩
  · rw [length_drop]
    omega
  · have bytes : [1, kind.toByte] = (datagram.drop 4).take 1 ++ (datagram.drop 5).take 1 := by
      rw [Kind.toByte_of_ofByte? known, ← version, ← getD_field (by omega), ← getD_field (by omega)]
      rfl
    unfold marshalPacket
    simp only [putUint16_eq, putUint64_eq]
    rw [length_drop, ← length, ← marked.2, bytes, putBytes_field (by omega),
      putBytes_field (by omega), putBytes_field (by omega), putBytes_field (by omega),
      putBytes_field (by omega), putBytes_field (by omega)]
    simp only [append_assoc, headerSize]
    rw [slice_append rfl, slice_append rfl, slice_append rfl, slice_append rfl, slice_append rfl,
      slice_append rfl, slice_append rfl, slice_append rfl, take_append_drop]

theorem marshalPacket_length (p : Packet) :
    (marshalPacket p).length = headerSize + p.payload.length := by
  simp [marshalPacket, magic, headerSize]
  omega

theorem marshalPacket_take_magic (p : Packet) : (marshalPacket p).take 4 = magic := by
  simp [marshalPacket, magic]

theorem parsePacket_marshalPacket {p : Packet} (fits : p.Fits) :
    parsePacket (marshalPacket p) = .ok (some p) := by
  have length := marshalPacket_length p
  have payloadBound := fits.payload
  have payloadLen : bigEndian (((marshalPacket p).drop 22).take 2) = p.payload.length := by
    have raw : ((marshalPacket p).drop 22).take 2 = putUint16 p.payload.length := by
      simp [marshalPacket, magic, putUint16, putUint64]
    rw [raw, bigEndian_putUint16]
    simp only [maxFrameSize] at payloadBound
    omega
  have version : (marshalPacket p).getD 4 0 = 1 := by
    simp [marshalPacket, magic]
  have kind : (marshalPacket p).getD 5 0 = p.kind.toByte := by
    simp [marshalPacket, magic]
  have epoch : ((marshalPacket p).drop 6).take 2 = putUint16 p.epoch := by
    simp [marshalPacket, magic, putUint16, putUint64]
  have groupID : ((marshalPacket p).drop 8).take 8 = putUint64 p.groupID := by
    simp [marshalPacket, magic, putUint16, putUint64]
  have index : ((marshalPacket p).drop 16).take 2 = putUint16 p.index := by
    simp [marshalPacket, magic, putUint16, putUint64]
  have k : ((marshalPacket p).drop 18).take 2 = putUint16 p.k := by
    simp [marshalPacket, magic, putUint16, putUint64]
  have r : ((marshalPacket p).drop 20).take 2 = putUint16 p.r := by
    simp [marshalPacket, magic, putUint16, putUint64]
  have payload : (marshalPacket p).drop headerSize = p.payload := by
    simp [marshalPacket, magic, putUint16, putUint64, headerSize]
  have notShort : ¬((marshalPacket p).length < 4 ∨ (marshalPacket p).take 4 ≠ magic) := by
    rw [marshalPacket_take_magic, length]
    simp [headerSize]
    omega
  have hasHeader : ¬(marshalPacket p).length < headerSize := by
    omega
  have remaining : (marshalPacket p).length - headerSize = p.payload.length := by
    omega
  rw [parsePacket, if_neg notShort, if_neg hasHeader, if_neg (not_not.mpr version),
    kind, Kind.ofByte?_toByte]
  simp only [payloadLen, remaining, ne_eq, not_true_eq_false, if_false,
    epoch, groupID, index, k, r, payload, bigEndian_putUint16,
    bigEndian_putUint64, Nat.mod_eq_of_lt fits.epoch,
    Nat.mod_eq_of_lt fits.groupID, Nat.mod_eq_of_lt fits.index,
    Nat.mod_eq_of_lt fits.k, Nat.mod_eq_of_lt fits.r]
  rw [if_neg (Nat.not_lt.mpr payloadBound)]

end WgQuic.Fec
