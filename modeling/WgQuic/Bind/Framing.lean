import WgQuic.Fec.Decoder

/-!
# WireGuard datagrams in frames

A datagram is cut into `WGQ1` frames, and the frames of many datagrams and
sessions are put together again in one table.  Sizes and times are natural
numbers and integers; header fields are cut to their width when they are
written.
-/

namespace WgQuic.Bind

open List

open Fec (Bytes Time Packet putUint16 putUint64 bigEndian putBytes putUint16_eq putUint64_eq
  putBytes_field getD_field slice_append bigEndian_take_lt marshalPacket parsePacket)

def frameHeaderSize : Nat := 21
def maxFragmentData : Nat := 4075
def maxFragments : Nat := 128
def maxDatagramSize : Nat := 65535
def reassemblyTTL : Int := 3000000000
def maxReassemblies : Nat := 2048

def frameMagic : Bytes := [0x57, 0x47, 0x51, 0x31]

structure Fragment where
  packetID : Nat
  index : Nat
  count : Nat
  total : Nat
  data : Bytes
deriving DecidableEq, Repr

def putUint32 (value : Nat) : Bytes :=
  [UInt8.ofNat (value / 2 ^ 24), UInt8.ofNat (value / 2 ^ 16),
    UInt8.ofNat (value / 2 ^ 8), UInt8.ofNat value]

theorem bigEndian_putUint32 (value : Nat) : bigEndian (putUint32 value) = value % 2 ^ 32 := by
  simp only [bigEndian, putUint32, foldl_cons, foldl_nil, UInt8.toNat_ofNat']
  omega

theorem putUint32_eq (value : Nat) : putUint32 value = putBytes 4 value := by
  simp [putBytes, putUint32, Nat.div_div_eq_div_mul]

/-- `writeFragmentHeader`, as the bytes it puts in front of the payload. -/
def writeFragmentHeader (packetID index count total : Nat) : Bytes :=
  frameMagic ++ [1] ++ putUint64 packetID ++ putUint16 index ++ putUint16 count ++ putUint32 total

@[simp] theorem writeFragmentHeader_length (packetID index count total : Nat) :
    (writeFragmentHeader packetID index count total).length = frameHeaderSize := rfl

/-- The loop of `fragmentPacketSized` over the bytes that are left.  Each round
takes at least one byte, so their number bounds it. -/
def fragmentLoop (packetID count total size : Nat) : Nat → Nat → Bytes → List Bytes
  | 0, _, _ => []
  | fuel + 1, i, rest =>
    if rest = [] then []
    else
      (writeFragmentHeader packetID i count total ++ rest.take size) ::
        fragmentLoop packetID count total size fuel (i + 1) (rest.drop size)

def fragmentPacketSized (packet : Bytes) (packetID : Nat)
    (fragmentData : Int) : Except String (List Bytes) :=
  if packet.length = 0 ∨ packet.length > maxDatagramSize then
    .error ("invalid WireGuard datagram size " ++ toString packet.length)
  else if fragmentData ≤ 0 ∨ fragmentData > maxFragmentData then
    .error ("invalid fragment payload size " ++ toString fragmentData)
  else
    let size := fragmentData.toNat
    let count := (packet.length + size - 1) / size
    if count > maxFragments then
      .error ("datagram needs " ++ toString count ++
        " fragments, maximum is " ++ toString maxFragments)
    else
      .ok (fragmentLoop packetID count packet.length size packet.length 0 packet)

/-- The header is written over the room in front of the payload. -/
def framePreparedPacket (frame : Bytes) (packetID : Nat) : Except String Bytes :=
  let payloadLen : Int := (frame.length : Int) - frameHeaderSize
  if payloadLen ≤ 0 ∨ payloadLen > maxDatagramSize then
    .error ("invalid prepared WireGuard datagram size " ++ toString payloadLen)
  else
    .ok (writeFragmentHeader packetID 0 1 payloadLen.toNat ++ frame.drop frameHeaderSize)

def parseFragment (frame : Bytes) : Except String Fragment :=
  if frame.length ≤ frameHeaderSize then .error "frame is too short"
  else if frame.take 4 ≠ frameMagic ∨ frame.getD 4 0 ≠ 1 then
    .error "invalid frame magic or version"
  else
    let f : Fragment := {
      packetID := bigEndian ((frame.drop 5).take 8)
      index := bigEndian ((frame.drop 13).take 2)
      count := bigEndian ((frame.drop 15).take 2)
      total := bigEndian ((frame.drop 17).take 4)
      data := frame.drop frameHeaderSize }
    if f.count = 0 ∨ f.count > maxFragments ∨ f.index ≥ f.count then
      .error "invalid fragment index or count"
    else if f.total = 0 ∨ f.total > maxDatagramSize then
      .error "invalid total datagram size"
    else if f.data.length > maxFragmentData then
      .error "fragment payload is too large"
    else .ok f

structure ReassemblyKey where
  sessionID : Nat
  packetID : Nat
deriving DecidableEq, Repr

structure Reassembly where
  created : Time
  key : ReassemblyKey
  total : Nat
  count : Nat
  seen : Nat := 0
  bytes : Nat := 0
  shards : List (Option Bytes)

/-- An element of `reassemblyExpiry`: its age and its identity. -/
structure ReassemblyEntry where
  created : Time
  key : ReassemblyKey
deriving DecidableEq

def ReassemblyEntry.less (left right : ReassemblyEntry) : Bool :=
  left.created < right.created

def Reassembly.entry (group : Reassembly) : ReassemblyEntry :=
  { created := group.created, key := group.key }

structure Reassembler where
  groups : AList (fun _ : ReassemblyKey => Reassembly) := ∅
  expiry : IndexedHeap ReassemblyEntry := {}

namespace Reassembler

def removeLocked (r : Reassembler) (entry : ReassemblyEntry) : Reassembler :=
  { groups := r.groups.erase entry.key
    expiry := r.expiry.remove ReassemblyEntry.less (r.expiry.position entry) }

/-- The loop of `expireLocked`; each round removes the oldest element. -/
def expireLoop (now : Time) : Nat → Reassembler → Reassembler
  | 0, r => r
  | fuel + 1, r =>
    match r.expiry.items with
    | [] => r
    | oldest :: _ =>
      if Fec.Time.sub now oldest.created > reassemblyTTL then
        expireLoop now fuel (r.removeLocked oldest)
      else r

def expireLocked (now : Time) (r : Reassembler) : Reassembler :=
  expireLoop now r.expiry.size r

/-- A slice that is copied with `append([]byte(nil), …)` is nil when it is
empty. -/
def copyShard (data : Bytes) : Option Bytes :=
  if data = [] then none else some data

def enter (group : Reassembly) (f : Fragment) : Reassembly :=
  { group with
    shards := group.shards.set f.index (copyShard f.data)
    seen := group.seen + 1
    bytes := group.bytes + f.data.length }

/-- The end of `add`: the group stays, or the datagram is returned. -/
def finish (r : Reassembler) (group : Reassembly) : Except String (Option Bytes) × Reassembler :=
  if group.seen ≠ group.count then
    (.ok none, { r with groups := r.groups.insert group.key group })
  else if group.bytes ≠ group.total then
    (.error "reassembled datagram length mismatch", r.removeLocked group.entry)
  else
    (.ok (some (group.shards.flatMap (·.getD []))), r.removeLocked group.entry)

/-- The part of `add` that enters a fragment into its group.  `parseFragment`
has checked that the index is below the count. -/
def addToGroup (r : Reassembler) (group : Reassembly) (f : Fragment) :
    Except String (Option Bytes) × Reassembler :=
  if group.total ≠ f.total ∨ group.count ≠ f.count then
    (.error "inconsistent fragment metadata", r.removeLocked group.entry)
  else if group.shards.getD f.index none = none then
    if (group.bytes + f.data.length + group.count : Int) - group.seen - 1 >
        group.total then
      (.error "fragment payload exceeds total datagram size", r.removeLocked group.entry)
    else r.finish (enter group f)
  else r.finish group

/-- `add`.  An owned frame is returned as it is and a borrowed one as a copy,
which are the same bytes. -/
def add (now : Time) (r : Reassembler) (sessionID : Nat) (f : Fragment)
    (_owned : Bool) : Except String (Option Bytes) × Reassembler :=
  if f.count = 1 then
    if f.data.length ≠ f.total then
      (.error "single-fragment length mismatch", r)
    else (.ok (some f.data), r)
  else
    let r := r.expireLocked now
    let key : ReassemblyKey := { sessionID, packetID := f.packetID }
    match r.groups.lookup key with
    | some group => r.addToGroup group f
    | none =>
      if r.groups.entries.length ≥ maxReassemblies then
        (.error "too many incomplete datagrams", r)
      else
        let group : Reassembly :=
          { created := now, key, total := f.total, count := f.count
            shards := List.replicate f.count none }
        addToGroup
          { groups := r.groups.insert key group
            expiry := r.expiry.push ReassemblyEntry.less group.entry }
          group f

def expire (now : Time) (r : Reassembler) : Reassembler :=
  r.expireLocked now

/-- `discardSession`.  The map is visited in the order that `visit` gives. -/
def discardSession (visit : List Reassembly → List Reassembly) (r : Reassembler)
    (sessionID : Nat) : Reassembler :=
  let groups := (r.groups.entries.map Sigma.snd).filter fun group =>
    group.key.sessionID = sessionID
  (visit groups).foldl (fun r group => r.removeLocked group.entry) r

end Reassembler

/-! ## What a cut datagram looks like -/

/-- The bytes of fragment `i`. -/
def chunk (packet : Bytes) (size i : Nat) : Bytes :=
  (packet.drop (i * size)).take size

theorem chunk_length (packet : Bytes) (size i : Nat) :
    (chunk packet size i).length = min size (packet.length - i * size) := by
  simp [chunk]

theorem flatMap_chunk (packet : Bytes) (size count : Nat) (enough : packet.length ≤ count * size) :
    (List.range count).flatMap (chunk packet size) = packet := by
  have taken : ∀ n, (List.range n).flatMap (chunk packet size) = packet.take (n * size) := by
    intro n
    induction n with
    | zero => simp
    | succ n ih =>
      rw [range_succ, flatMap_append, ih, Nat.succ_mul, take_add]
      simp [chunk]
  rw [taken, take_of_length_le enough]

theorem rounds_succ {size rest : Nat} (positive : 0 < size) (some_ : 0 < rest) :
    (rest + size - 1) / size = (rest - size + size - 1) / size + 1 := by
  by_cases last : rest ≤ size
  · have one : rest + size - 1 = rest - 1 + size := by omega
    have zero : rest - size + size - 1 = size - 1 := by omega
    rw [one, zero, Nat.add_div_right _ positive, Nat.div_eq_of_lt (by omega : rest - 1 < size),
      Nat.div_eq_of_lt (by omega : size - 1 < size)]
  · have more : rest + size - 1 = rest - size + size - 1 + size := by omega
    rw [more, Nat.add_div_right _ positive]

theorem fragmentLoop_eq (packetID count total : Nat) {size : Nat} (positive : 0 < size)
    (packet : Bytes) (fuel i : Nat) (bound : packet.length ≤ i * size + fuel) :
    fragmentLoop packetID count total size fuel i (packet.drop (i * size)) =
      (List.range' i ((packet.length - i * size + size - 1) / size)).map
        fun j => writeFragmentHeader packetID j count total ++ chunk packet size j := by
  induction fuel generalizing i with
  | zero =>
    have none_ : packet.length - i * size = 0 := by omega
    rw [none_, Nat.div_eq_of_lt (by omega)]
    rfl
  | succ fuel ih =>
    rw [fragmentLoop]
    by_cases done : packet.drop (i * size) = []
    · have none_ : packet.length - i * size = 0 := by
        simpa using congrArg List.length done
      rw [if_pos done, none_, Nat.div_eq_of_lt (by omega)]
      rfl
    · have some_ : 0 < packet.length - i * size := by
        rw [← length_drop]
        exact length_pos_iff.mpr done
      have next := ih (i + 1) (by rw [Nat.succ_mul]; omega)
      have rounds : (packet.length - i * size + size - 1) / size =
          (packet.length - (i + 1) * size + size - 1) / size + 1 := by
        rw [Nat.succ_mul, ← Nat.sub_sub]
        exact rounds_succ positive some_
      rw [if_neg done, rounds, List.range'_succ, map_cons, drop_drop, ← next, Nat.succ_mul]
      rfl

variable {packetID : Nat}

theorem parseFragment_frame {index count total : Nat} {data : Bytes}
    (packetFits : packetID < 2 ^ 64) (indexed : index < count) (few : count ≤ maxFragments)
    (nonempty : 0 < total) (small : total ≤ maxDatagramSize) (carries : 0 < data.length)
    (short : data.length ≤ maxFragmentData) :
    parseFragment (writeFragmentHeader packetID index count total ++ data) =
      .ok { packetID, index, count, total, data } := by
  have few' : count ≤ 128 := few
  have small' : total ≤ 65535 := small
  have long : ¬(writeFragmentHeader packetID index count total ++ data).length ≤
      frameHeaderSize := by
    rw [length_append, writeFragmentHeader_length]
    omega
  have packetField : bigEndian (((writeFragmentHeader packetID index count
      total ++ data).drop 5).take 8) = packetID :=
    (WgQuic.Fec.bigEndian_putUint64 packetID).trans (Nat.mod_eq_of_lt packetFits)
  have indexField : bigEndian (((writeFragmentHeader packetID index count
      total ++ data).drop 13).take 2) = index :=
    (WgQuic.Fec.bigEndian_putUint16 index).trans (Nat.mod_eq_of_lt (by omega))
  have countField : bigEndian (((writeFragmentHeader packetID index count
      total ++ data).drop 15).take 2) = count :=
    (WgQuic.Fec.bigEndian_putUint16 count).trans (Nat.mod_eq_of_lt (by omega))
  have totalField : bigEndian (((writeFragmentHeader packetID index count
      total ++ data).drop 17).take 4) = total :=
    (bigEndian_putUint32 total).trans (Nat.mod_eq_of_lt (by omega))
  have dataField : (writeFragmentHeader packetID index count total ++ data).drop
      frameHeaderSize = data := rfl
  have marked : ¬((writeFragmentHeader packetID index count total ++
      data).take 4 ≠ frameMagic ∨ (writeFragmentHeader packetID index count
        total ++ data).getD 4 0 ≠ 1) := by
    simp [writeFragmentHeader, frameMagic]
  rw [parseFragment, if_neg long, if_neg marked]
  simp only [packetField, indexField, countField, totalField, dataField]
  rw [if_neg (by omega), if_neg (by omega), if_neg (by omega)]

def Fragment.frame (f : Fragment) : Bytes :=
  writeFragmentHeader f.packetID f.index f.count f.total ++ f.data

structure Fragment.Fits (f : Fragment) : Prop where
  packetID : f.packetID < 2 ^ 64
  index : f.index < f.count
  count : f.count ≤ maxFragments
  total : 0 < f.total ∧ f.total ≤ maxDatagramSize
  data : 0 < f.data.length ∧ f.data.length ≤ maxFragmentData

/-- What is accepted fits, and is what would be written for it. -/
theorem parseFragment_ok {frame : Bytes} {f : Fragment} (parsed : parseFragment frame = .ok f) :
    f.Fits ∧ f.frame = frame := by
  unfold parseFragment at parsed
  split at parsed
  · cases parsed
  next long =>
  split at parsed
  · cases parsed
  next marked =>
  dsimp only at parsed
  split at parsed
  · cases parsed
  next indexed =>
  split at parsed
  · cases parsed
  next sized =>
  split at parsed
  · cases parsed
  next short =>
  cases parsed
  push Not at marked indexed sized
  have long : 21 < frame.length := Nat.lt_of_not_le long
  refine ⟨⟨bigEndian_take_lt _ 8, indexed.2.2, indexed.2.1,
    ⟨Nat.pos_of_ne_zero sized.1, sized.2⟩, ?_, Nat.le_of_not_lt short⟩, ?_⟩
  · rw [length_drop]
    exact Nat.sub_pos_of_lt long
  · have version : [1] = (frame.drop 4).take 1 := by
      rw [← marked.2]
      exact getD_field (by omega)
    unfold Fragment.frame writeFragmentHeader
    simp only [putUint16_eq, putUint64_eq, putUint32_eq]
    rw [← marked.1, version, putBytes_field (by omega), putBytes_field (by omega),
      putBytes_field (by omega), putBytes_field (by omega)]
    simp only [append_assoc, frameHeaderSize]
    rw [slice_append rfl, slice_append rfl, slice_append rfl, slice_append rfl, slice_append rfl,
      take_append_drop]

/-- What an accepted call of `fragmentPacketSized` says. -/
structure Fragmented (packet : Bytes) (packetID size count : Nat)
    (frames : List Bytes) : Prop where
  nonempty : 0 < packet.length
  small : packet.length ≤ maxDatagramSize
  positive : 0 < size
  short : size ≤ maxFragmentData
  few : count ≤ maxFragments
  rounds : count = (packet.length + size - 1) / size
  frames_eq : frames = (List.range count).map fun i =>
    writeFragmentHeader packetID i count packet.length ++ chunk packet size i

theorem fragmentPacketSized_ok {packet : Bytes} {fragmentData : Int} {frames : List Bytes}
    (ok : fragmentPacketSized packet packetID fragmentData = .ok frames) :
    Fragmented packet packetID fragmentData.toNat frames.length frames := by
  unfold fragmentPacketSized at ok
  split at ok
  · cases ok
  next sized =>
  split at ok
  · cases ok
  next accepted =>
  dsimp only at ok
  split at ok
  · cases ok
  next few =>
  have positive : 0 < fragmentData.toNat := by omega
  have loop := fragmentLoop_eq packetID
    ((packet.length + fragmentData.toNat - 1) / fragmentData.toNat)
    packet.length positive packet packet.length 0 (by omega)
  simp only [Nat.zero_mul, drop_zero, Nat.sub_zero, ← range_eq_range'] at loop
  cases ok
  have counted : (fragmentLoop packetID ((packet.length + fragmentData.toNat - 1) /
        fragmentData.toNat) packet.length fragmentData.toNat packet.length 0 packet).length =
      (packet.length + fragmentData.toNat - 1) / fragmentData.toNat := by
    simp [loop]
  refine ⟨by omega, by omega, positive, by omega, ?_, counted, ?_⟩
  · rw [counted]
    exact Nat.le_of_not_lt few
  · rw [counted]
    exact loop

/-- A datagram that fits one fragment is framed in place. -/
theorem framePreparedPacket_eq {room payload : Bytes} {fragmentData : Int} {frames : List Bytes}
    (reserved : room.length = frameHeaderSize)
    (ok : fragmentPacketSized payload packetID fragmentData = .ok frames)
    (fits : (payload.length : Int) ≤ fragmentData) :
    ∃ frame, framePreparedPacket (room ++ payload) packetID = .ok frame ∧ frames = [frame] := by
  have cut := fragmentPacketSized_ok ok
  have short : payload.length ≤ fragmentData.toNat := by omega
  have one : frames.length = 1 := by
    rw [cut.rounds]
    have split_ : payload.length + fragmentData.toNat - 1 =
        payload.length - 1 + fragmentData.toNat := by
      have := cut.nonempty
      omega
    have := cut.nonempty
    rw [split_, Nat.add_div_right _ cut.positive, Nat.div_eq_of_lt (by omega)]
  have length : ((room ++ payload).length : Int) - frameHeaderSize = payload.length := by
    rw [length_append]
    omega
  have valid : ¬((payload.length : Int) ≤ 0 ∨ (payload.length : Int) > maxDatagramSize) := by
    have := cut.nonempty
    have := cut.small
    omega
  refine ⟨writeFragmentHeader packetID 0 1 payload.length ++ payload, ?_, ?_⟩
  · rw [framePreparedPacket]
    simp only [length, if_neg valid]
    rw [← reserved, drop_left]
    rfl
  · rw [cut.frames_eq, one]
    simp [chunk, take_of_length_le short]

theorem framePreparedPacket_eq_byte : ∃ frames, fragmentPacketSized [7] 3 1 = .ok frames ∧
      ∃ frame, framePreparedPacket (List.replicate frameHeaderSize 0 ++ [7]) 3 = .ok frame ∧
        frames = [frame] :=
  ⟨_, rfl, framePreparedPacket_eq rfl (rfl : fragmentPacketSized _ _ 1 = _) (by decide)⟩

namespace Fragmented

variable {packet : Bytes} {packetID size count : Nat} {frames : List Bytes}

section

variable (cut : Fragmented packet packetID size count frames)

include cut

theorem covers : packet.length ≤ count * size := by
  have bound := Nat.lt_div_mul_add (a := packet.length + size - 1) cut.positive
  rw [← cut.rounds] at bound
  omega

theorem chunk_positive {i : Nat} (bound : i < count) : 0 < (chunk packet size i).length := by
  have positive := cut.positive
  have below : i * size < packet.length := by
    have times := Nat.mul_le_mul_right size (Nat.le_sub_one_of_lt bound)
    have rounds := Nat.div_mul_le_self (packet.length + size - 1) size
    rw [← cut.rounds] at rounds
    rw [Nat.sub_mul] at times
    have atLeast : size ≤ count * size := Nat.le_mul_of_pos_left size (Nat.zero_lt_of_lt bound)
    omega
  rw [chunk_length]
  omega

/-- Every frame reads back as its fragment. -/
theorem parse (fits : packetID < 2 ^ 64) {i : Nat} (bound : i < count) :
    parseFragment (writeFragmentHeader packetID i count packet.length ++ chunk packet size i) =
      .ok { packetID, index := i, count, total := packet.length
            data := chunk packet size i } := by
  refine parseFragment_frame fits bound cut.few cut.nonempty cut.small (cut.chunk_positive bound) ?_
  rw [chunk_length]
  exact Nat.le_trans (Nat.min_le_left _ _) cut.short

theorem flatMap_chunks : (List.range count).flatMap (chunk packet size) = packet :=
  flatMap_chunk packet size count cut.covers

end

end Fragmented

/-- Both formats can be read back and written back, and no frame is taken for an FEC record. -/
theorem wire_formats : (∀ p : Packet, p.Fits → parsePacket (marshalPacket p) = .ok (some p)) ∧
    (∀ data p, parsePacket data = .ok (some p) → marshalPacket p = data) ∧
    (∀ f : Fragment, f.Fits → parseFragment f.frame = .ok f) ∧
    (∀ frame f, parseFragment frame = .ok f → f.frame = frame) ∧
    ∀ data f, parseFragment data = .ok f → parsePacket data = .ok none := by
  refine ⟨fun _ fits => Fec.parsePacket_marshalPacket fits,
    fun _ _ parsed => (Fec.parsePacket_ok parsed).2, ?_,
    fun _ _ parsed => (parseFragment_ok parsed).2, ?_⟩
  · intro f fits
    exact parseFragment_frame fits.packetID fits.index fits.count fits.total.1 fits.total.2
      fits.data.1 fits.data.2
  · intro data f parsed
    obtain ⟨-, rfl⟩ := parseFragment_ok parsed
    -- the fourth byte of the magic tells them apart
    exact if_pos (.inr (by simp [Fragment.frame, writeFragmentHeader, frameMagic, Fec.magic]))

end WgQuic.Bind
