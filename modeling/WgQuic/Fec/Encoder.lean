import WgQuic.Fec.Codec

/-!
# The FEC encoder

One sending direction.  Shard buffers keep their capacity between groups as
the encoder's do, so padding has to clear what a longer earlier frame left
behind.  The adaptive controller is outside: a call receives the interleave
and parity snapshots it reads.
-/

namespace WgQuic.Fec

/-- What the encoder returns: a frame forwarded without protection, or a
record.  `Datagram.bytes` is the slice handed to the carrier. -/
inductive Datagram where
  | raw (frame : Bytes)
  | record (p : Packet)
deriving DecidableEq

def Datagram.bytes : Datagram → Bytes
  | .raw frame => frame
  | .record p => marshalPacket p

/-! ## Shard buffers -/

/-- A slice of an encoder-owned array: the array up to the slice's capacity
and the slice's length. -/
structure Shard where
  backing : Bytes := []
  len : Nat := 0
  inCapacity : len ≤ backing.length := by simp

def Shard.bytes (shard : Shard) : Bytes := shard.backing.take shard.len

@[simp] theorem Shard.bytes_length (shard : Shard) : shard.bytes.length = shard.len := by
  simp [Shard.bytes, shard.inCapacity]

/-- A source frame behind its length prefix. -/
def encodeDataShard (frame : Bytes) : Bytes :=
  putUint16 frame.length ++ frame

@[simp] theorem encodeDataShard_length (frame : Bytes) :
    (encodeDataShard frame).length = 2 + frame.length := by
  simp [encodeDataShard, Nat.add_comm]

/-- Write a frame into a buffer, keeping the array when it is large enough. -/
def Shard.store (shard : Shard) (frame : Bytes) : Shard :=
  if shard.backing.length < 2 + frame.length then
    { backing := encodeDataShard frame, len := 2 + frame.length
      inCapacity := by simp }
  else
    { backing := encodeDataShard frame ++ shard.backing.drop (2 + frame.length)
      len := 2 + frame.length, inCapacity := by simp }

def padShard (shard : Bytes) (shardSize : Nat) : Bytes :=
  if shard.length = shardSize then shard
  else (shard ++ List.replicate (shardSize - shard.length) 0).take shardSize

/-- Extend a buffer to the group's shard size: a fresh padded copy when the
array is too small, otherwise the same array with the stale bytes cleared. -/
def Shard.pad (shard : Shard) (shardSize : Nat) : Shard :=
  if small : shard.backing.length < shardSize then
    { backing := (shard.bytes ++ List.replicate (shardSize - shard.len) 0).take shardSize
      len := shardSize
      inCapacity := by simp; omega }
  else
    { backing := (shard.bytes ++ List.replicate (shardSize - shard.len) 0 ++
        shard.backing.drop shardSize)
      len := shardSize
      inCapacity := by simp; omega }

@[simp] theorem Shard.store_bytes (shard : Shard) (frame : Bytes) :
    (shard.store frame).bytes = encodeDataShard frame := by
  unfold Shard.store
  split <;> simp [Shard.bytes]

theorem padShard_of_le {shard : Bytes} {shardSize : Nat} (fits : shard.length ≤ shardSize) :
    padShard shard shardSize = shard ++ List.replicate (shardSize - shard.length) 0 := by
  unfold padShard
  split
  · rename_i exact
    simp [exact]
  · simp
    omega

theorem Shard.pad_bytes {shard : Shard} {shardSize : Nat} (fits : shard.len ≤ shardSize) :
    (shard.pad shardSize).bytes = padShard shard.bytes shardSize := by
  rw [padShard_of_le (by simpa using fits)]
  unfold Shard.pad
  split
  · simp only [Shard.bytes, List.take_take, Nat.min_self]
    simp [shard.inCapacity]
    omega
  · simp only [Shard.bytes]
    rw [List.take_append_of_le_length (by simp [shard.inCapacity]; omega)]
    simp [shard.inCapacity]
    omega

/-! ## Groups -/

/-- One lane.  `slots` is `group.data` up to its capacity and `len` its
length: closed groups leave their buffers behind for reuse. -/
structure EncoderGroup where
  groupID : Nat := 0
  epoch : Nat := 0
  parity : Nat := 0
  slots : List Shard := []
  len : Nat := 0
  inCapacity : len ≤ slots.length := by simp

def EncoderGroup.data (group : EncoderGroup) : List Shard :=
  group.slots.take group.len

def EncoderGroup.push (group : EncoderGroup) (frame : Bytes) : EncoderGroup :=
  if reuse : group.len < group.slots.length then
    { group with
      slots := group.slots.set group.len
        ((group.slots.get ⟨group.len, reuse⟩).store frame)
      len := group.len + 1
      inCapacity := by simp; omega }
  else
    { group with
      slots := group.slots ++ [Shard.store {} frame]
      len := group.len + 1
      inCapacity := by simp [group.inCapacity] }

section

variable (group : EncoderGroup) (frame : Bytes)

include group frame

theorem EncoderGroup.push_data : (group.push frame).data.map Shard.bytes =
      group.data.map Shard.bytes ++ [encodeDataShard frame] := by
  unfold EncoderGroup.push
  split
  · rename_i reuse
    simp only [EncoderGroup.data]
    rw [List.take_add_one, List.take_set_of_le (Nat.le_refl _), List.getElem?_set_self reuse]
    simp
  · rename_i full
    have exact : group.len = group.slots.length :=
      Nat.le_antisymm group.inCapacity (Nat.le_of_not_lt full)
    simp [EncoderGroup.data, exact]

@[simp] theorem EncoderGroup.push_len : (group.push frame).len = group.len + 1 := by
  unfold EncoderGroup.push
  split <;> rfl

@[simp] theorem EncoderGroup.push_groupID : (group.push frame).groupID = group.groupID := by
  unfold EncoderGroup.push
  split <;> rfl

@[simp] theorem EncoderGroup.push_epoch : (group.push frame).epoch = group.epoch := by
  unfold EncoderGroup.push
  split <;> rfl

@[simp] theorem EncoderGroup.push_parity : (group.push frame).parity = group.parity := by
  unfold EncoderGroup.push
  split <;> rfl

end

def shardSizeOf (shards : List Bytes) : Nat :=
  shards.foldl (fun size shard => max size shard.length) 0

def parityCount (parity k : Nat) : Nat :=
  min (min parity (max 1 (k / 2))) maxParityShards

/-- `group.data[i] = shards[i]`: the slots after the padding loop. -/
def EncoderGroup.padded (group : EncoderGroup) (shardSize : Nat) : EncoderGroup :=
  { group with
    slots := group.data.map (Shard.pad · shardSize) ++ group.slots.drop group.len
    inCapacity := by simp [EncoderGroup.data, group.inCapacity] }

def EncoderGroup.reset (group : EncoderGroup) : EncoderGroup :=
  { group with len := 0, inCapacity := Nat.zero_le _ }

def EncoderGroup.closeRecord (group : EncoderGroup) (r : Nat) : Packet :=
  { kind := .close, epoch := group.epoch, groupID := group.groupID
    k := group.len, r := r }

def EncoderGroup.parityRecords (group : EncoderGroup) (r : Nat)
    (parity : List Bytes) : List Packet :=
  parity.mapIdx fun i shard =>
    { kind := .parity, epoch := group.epoch, groupID := group.groupID
      index := i, k := group.len, r := r, payload := shard }

def flushGroup (codec : Codec) (group : EncoderGroup) :
    Except String (List Datagram) × EncoderGroup :=
  if group.len = 0 then (.ok [], group)
  else
    let r := parityCount group.parity group.len
    if r = 0 then (.ok [.record (group.closeRecord r)], group.reset)
    else
      let shardSize := shardSizeOf (group.data.map Shard.bytes)
      let padded := group.padded shardSize
      match codec.new group.len r with
      | some err => (.error err, padded)
      | none =>
        match codec.encode group.len r (padded.data.map Shard.bytes) with
        | .error err => (.error err, padded)
        | .ok parity =>
          (.ok ((group.parityRecords r parity ++ [group.closeRecord r]).map .record), padded.reset)

def flushGroups (codec : Codec) :
    List EncoderGroup → Except String (List Datagram) × List EncoderGroup
  | [] => (.ok [], [])
  | group :: groups =>
    match flushGroup codec group with
    | (.error err, group) => (.error err, group :: groups)
    | (.ok flushed, group) =>
      match flushGroups codec groups with
      | (.error err, groups) => (.error err, group :: groups)
      | (.ok rest, groups) => (.ok (flushed ++ rest), group :: groups)

/-! ## The encoder -/

structure Encoder where
  epoch : Nat
  nextGroupID : Nat
  maxData : Nat
  interleave : Nat
  minInterleave : Nat
  groups : List EncoderGroup
  current : Nat
  lastParity : Int
  unprotected : Nat

namespace Encoder

def initGroups (e : Encoder) (n : Nat) : Encoder :=
  { e with groups := List.replicate n {}, current := 0 }

def new (maxData : Nat) : Encoder :=
  let maxData :=
    if maxData = 0 ∨ maxData > maxDataShards then defaultDataShards
    else maxData
  initGroups {
    epoch := 1, nextGroupID := 0, maxData := maxData, interleave := 1
    minInterleave := 1, groups := [], current := 0, lastParity := -1
    unprotected := 0 } 1

variable (codec : Codec)

def flushAll (e : Encoder) : Except String (List Datagram) × Encoder :=
  let (flushed, groups) := flushGroups codec e.groups
  (flushed, { e with groups := groups })

/-- `setInterleave` -/
def swapInterleave (e : Encoder) (n : Nat) : Except String (List Datagram) × Encoder :=
  let n := min maxInterleave (max 1 n)
  if n = e.interleave then (.ok [], e)
  else
    match e.flushAll codec with
    | (.error err, e) => (.error err, e)
    | (.ok flushed, e) => (.ok flushed, initGroups { e with interleave := n } n)

/-- `SetInterleave`, used before any group is in flight; the packets of the
swap are dropped. -/
def setInterleave (e : Encoder) (controllerInterleave n : Nat) : Encoder :=
  let e := { e with minInterleave := min maxInterleave (max 1 n) }
  (e.swapInterleave codec (max e.minInterleave controllerInterleave)).2

def reconfigure (e : Encoder) (controllerInterleave maxData interleave : Nat) :
    Except String (List Datagram) × Encoder :=
  if maxData = 0 ∨ maxData > maxDataShards then
    (.error "invalid FEC data shard count", e)
  else if interleave < 1 ∨ interleave > maxInterleave then
    (.error "invalid FEC interleave", e)
  else
    match e.flushAll codec with
    | (.error err, e) => (.error err, e)
    | (.ok flushed, e) =>
      let target := max interleave controllerInterleave
      (.ok flushed, initGroups
        { e with maxData := maxData, minInterleave := interleave
                 interleave := target } target)

def nextEpoch (epoch : Nat) : Nat :=
  let epoch := (epoch + 1) % 2 ^ 16
  if epoch = 0 then 1 else epoch

/-- Flush and start a new epoch when the parity target moved. -/
def enterParity (e : Encoder) (targetParity : Nat) : Except String (List Datagram) × Encoder :=
  if 0 ≤ e.lastParity ∧ (targetParity : Int) ≠ e.lastParity then
    match e.flushAll codec with
    | (.error err, e) => (.error err, e)
    | (.ok flushed, e) => (.ok flushed, { e with epoch := nextEpoch e.epoch })
  else (.ok [], e)

/-- The lane the next frame goes to, opened when it is empty. -/
def openLane (e : Encoder) (groupParity : Nat) (group : EncoderGroup) : EncoderGroup × Encoder :=
  if group.len = 0 then
    ({ group with
        groupID := e.nextGroupID, epoch := e.epoch, parity := groupParity },
      { e with nextGroupID := (e.nextGroupID + 1) % 2 ^ 64 })
  else (group, e)

def dataRecord (group : EncoderGroup) (frame : Bytes) : Datagram :=
  .record {
    kind := .data, epoch := group.epoch, groupID := group.groupID
    index := group.len, payload := encodeDataShard frame }

/-- Put the frame into an opened lane and close the lane when it is full. -/
def fillLane (e : Encoder) (group : EncoderGroup) (frame : Bytes) :
    Except String (List Datagram) × Encoder :=
  let full := group.push frame
  let record := dataRecord group frame
  let next := (e.current + 1) % e.interleave
  if full.len = e.maxData then
    match flushGroup codec full with
    | (.error err, flushed) =>
      (.error err, { e with groups := e.groups.set e.current flushed })
    | (.ok closed, flushed) =>
      (.ok (record :: closed), { e with groups := e.groups.set e.current flushed, current := next })
  else
    (.ok [record], { e with groups := e.groups.set e.current full, current := next })

/-- The rest of `Add` once the epoch is settled. -/
def place (e : Encoder) (groupParity : Nat) (frame : Bytes) :
    Except String (List Datagram) × Encoder :=
  let (group, e) := e.openLane groupParity (e.groups.getD e.current {})
  e.fillLane codec group frame

/-- `Add` after the interleave target was applied. -/
def addProtected (e : Encoder) (targetParity : Nat) (frame : Bytes) :
    Except String (List Datagram) × Encoder :=
  if targetParity = 0 ∧ e.unprotected < healthyProbeFrames then
    (.ok [.raw frame], { e with unprotected := e.unprotected + 1 })
  else
    match e.enterParity codec targetParity with
    | (.error err, e) => (.error err, e)
    | (.ok flushed, e) =>
      let e := { e with lastParity := targetParity }
      -- A healthy path is probed with one protected frame.
      let groupParity := if targetParity = 0 then 1 else targetParity
      let e := if targetParity = 0 then { e with unprotected := 0 } else e
      match e.place codec groupParity frame with
      | (.error err, e) => (.error err, e)
      | (.ok placed, e) => (.ok (flushed ++ placed), e)

def add (e : Encoder) (controllerInterleave controllerParity : Nat)
    (frame : Bytes) : Except String (List Datagram) × Encoder :=
  if frame.length = 0 ∨ frame.length > maxFrameSize then
    (.error "invalid FEC data frame length", e)
  else
    let target := max e.minInterleave controllerInterleave
    let swapped :=
      if target ≠ e.interleave then e.swapInterleave codec target
      else (.ok [], e)
    match swapped with
    | (.error err, e) => (.error err, e)
    | (.ok flushed, e) =>
      match e.addProtected codec controllerParity frame with
      | (.error err, e) => (.error err, e)
      | (.ok output, e) => (.ok (flushed ++ output), e)

end Encoder

end WgQuic.Fec
