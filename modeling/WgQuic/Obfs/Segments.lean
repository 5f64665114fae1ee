import WgQuic.Obfs.Salamander

/-!
# Segmented sends

A payload that the kernel is to cut into segments is obfuscated segment by
segment, and the size the kernel cuts at grows by the header.  A receiver opens
every piece with the key of the sender, whatever it has decoded before.
-/

namespace WgQuic.Obfs

open List SalamanderConn

open Fec (Bytes)

structure ControlMessage where
  level : Nat
  type : Nat
  body : Bytes

/-- `binary.NativeEndian.Uint16` of a little-endian host. -/
def uint16 : Bytes → Option Nat
  | [low, high] => some (low.toNat + 256 * high.toNat)
  | _ => none

def putUint16 (n : Nat) : Bytes :=
  [UInt8.ofNat n, UInt8.ofNat (n / 256)]

/-- `IPPROTO_UDP` and `UDP_SEGMENT` -/
def ControlMessage.IsSegment (message : ControlMessage) : Prop :=
  message.level = 17 ∧ message.type = 103

instance (message : ControlMessage) : Decidable message.IsSegment :=
  inferInstanceAs (Decidable (_ ∧ _))

/-- The out-of-band data as it is parsed, perhaps up to an error. -/
def growGSOSegmentSize (overhead : Nat) : List (Except String ControlMessage) →
      Except String (Nat × List (Except String ControlMessage))
  | [] => .ok (0, [])
  | .error err :: _ => .error err
  | .ok message :: rest =>
    if message.IsSegment then
      match uint16 message.body with
      | none => .error "invalid UDP_SEGMENT control message"
      | some size =>
        if size + overhead > 65535 then .error "Salamander GSO segment size overflow"
        else .ok (size, .ok { message with body := putUint16 (size + overhead) } :: rest)
    else
      match growGSOSegmentSize overhead rest with
      | .error err => .error err
      | .ok (size, rest) => .ok (size, .ok message :: rest)

/-- The size that the kernel finds in the out-of-band data. -/
def segmentSizeOf : List (Except String ControlMessage) → Option Nat
  | [] | .error _ :: _ => none
  | .ok message :: rest =>
    if message.IsSegment then uint16 message.body else segmentSizeOf rest

/-- The loop of `xorWords`: whole periods of the stream, then the tail. -/
def xorBlocks (payload stream : Bytes) : Bytes :=
  if payload.length ≥ 32 then
    List.zipWith (· ^^^ ·) (payload.take 32) stream ++ xorBlocks (payload.drop 32) stream
  else List.zipWith (· ^^^ ·) payload stream
termination_by payload.length
decreasing_by
  rw [length_drop]
  omega

namespace SalamanderConn

/-- The loop of `encodeSegmentsWithPair`; the record `i` draws the salt `i`. -/
def encodeLoop (digests : Digests) (key : Key) (salts : Nat → Bytes) {segmentSize : Nat}
    (positive : 0 < segmentSize) (i : Nat) (payload : Bytes) (capacity : Nat) :
    Except String Bytes :=
  if payload.length > 0 then
    match encode digests (payload.take segmentSize) capacity key (salts i) with
    | .error err => .error err
    | .ok record =>
      match encodeLoop digests key salts positive (i + 1) (payload.drop segmentSize)
          (capacity - record.length) with
      | .error err => .error err
      | .ok rest => .ok (record ++ rest)
  else .ok []
termination_by payload.length
decreasing_by
  rw [length_drop]
  omega

def encodeSegments (digests : Digests) (payload : Bytes) (capacity : Nat) (key : Key)
    (segmentSize : Int) (salts : Nat → Bytes) : Except String Bytes :=
  if positive : 0 < segmentSize.toNat ∧ segmentSize < payload.length then
    encodeLoop digests key salts positive.1 0 payload capacity
  else encode digests payload capacity key (salts 0)

end SalamanderConn

/-- The states of a receiver that is used by one goroutine at a time. -/
inductive Reachable (digests : Digests) : SalamanderConn → Prop where
  | wrap (peers : List PeerKey) : Reachable digests (.wrapKeyedSalamander peers)
  | acquire {c : SalamanderConn} (reachable : Reachable digests c) (key : Key) :
      Reachable digests (c.acquireReceiveKey key)
  | release {c : SalamanderConn} (reachable : Reachable digests c) (key : Key) :
      Reachable digests (c.releaseReceiveKey key)
  | decode {c : SalamanderConn} (reachable : Reachable digests c) (packet : Bytes)
      (capacity : Nat) : Reachable digests (c.decode digests packet capacity).2

variable {digests : Digests}

theorem Reachable.published {c : SalamanderConn}
    (reachable : Reachable digests c) : c.Published := by
  induction reachable with
  | wrap peers => exact wrap_published peers
  | acquire _ key ih => exact ih.acquire key
  | release _ key ih => exact ih.release key
  | decode _ packet capacity ih => exact (ih.decode digests packet capacity).1.1

/-- Every registered or cached key with the hint of the key is the key itself. -/
def HintsApart (digests : Digests) (c : SalamanderConn) (key : Key) (salt : Bytes) : Prop :=
  ∀ other, 0 < c.refs other ∨ c.lastKey = some other →
    digests.hint other salt = digests.hint key salt → other = key

/-- Cut every `size` bytes, or not at all. -/
def cut (size : Nat) (bytes : Bytes) : List Bytes :=
  if bytes.length = 0 then []
  else if size = 0 then [bytes]
  else bytes.take size :: cut size (bytes.drop size)
termination_by bytes.length
decreasing_by
  rw [length_drop]
  omega

/-- The size the kernel cuts at; without segments it does not. -/
def wireSize (segmentSize : Int) : Nat :=
  if 0 < segmentSize then segmentSize.toNat + salamanderHeaderSize else 0

/-- What `encode` writes. -/
def record (digests : Digests) (key : Key) (salt payload : Bytes) : Bytes :=
  salt ++ digests.hint key salt ++ SalamanderConn.xorWords payload (digests.stream key salt)

variable {capacity : Nat}

theorem encode_ok {payload output salt : Bytes} {key : Key}
    (encodes : SalamanderConn.encode digests payload capacity key salt = .ok output) :
    payload.length ≠ 0 ∧ output = record digests key salt payload := by
  unfold encode at encodes
  split at encodes
  · cases encodes
  next valid =>
  split at encodes
  · cases encodes
  cases encodes
  exact ⟨fun empty => valid (.inl empty), rfl⟩

/-- The blocks of a record are those of one long stream. -/
theorem xorBlocks_eq (digests : Digests) (key : Key) (salt payload : Bytes) :
    xorBlocks payload (digests.stream key salt) =
      SalamanderConn.xorWords payload (digests.stream key salt) := by
  have period := digests.stream_length key salt
  generalize digests.stream key salt = stream at period ⊢
  fun_induction xorBlocks payload stream with
  | case1 payload long ih =>
    rw [ih]
    apply ext_getElem
    · simp [xorWords, period]
      omega
    · intro i left right
      rw [getElem_append]
      split
      · next early =>
        simp only [length_zipWith, length_take, period] at early
        have small : i % 32 = i := Nat.mod_eq_of_lt (by omega)
        simp [xorWords, small, getD_eq_getElem?_getD,
          getElem?_eq_getElem (show i < stream.length by omega)]
      · next late =>
        have head : (List.zipWith (· ^^^ ·) (payload.take 32) stream).length = 32 := by
          simp [period, long]
        have wrapped : (i - 32) % 32 = i % 32 := by omega
        have shifted : 32 + (i - 32) = i := by omega
        simp [xorWords, head, wrapped, shifted]
  | case2 payload short =>
    apply ext_getElem
    · simp [xorWords, period]
      omega
    · intro i left right
      simp only [xorWords, length_mapIdx] at right
      have small : i % 32 = i := Nat.mod_eq_of_lt (by omega)
      simp [xorWords, small, getD_eq_getElem?_getD,
        getElem?_eq_getElem (show i < stream.length by omega)]

theorem xorWords_twice (payload stream : Bytes) :
    SalamanderConn.xorWords (SalamanderConn.xorWords payload stream) stream = payload := by
  apply ext_getElem
  · simp [xorWords]
  · intro i left right
    simp [xorWords, UInt8.xor_assoc]

/-- Cached or not, the one key with the hint opens the record. -/
theorem decode_record {c : SalamanderConn} {key : Key} {salt payload : Bytes}
    (published : c.Published) (registered : 0 < c.refs key)
    (apart : HintsApart digests c key salt) (sized : salt.length = salamanderSaltSize)
    (some : payload.length ≠ 0) (room : payload.length ≤ capacity) :
    (c.decode digests (record digests key salt payload) capacity).1 = .some (payload, key) := by
  have header : (salt ++ digests.hint key salt).length = salamanderHeaderSize := by
    rw [length_append, sized, digests.hint_length]
    rfl
  have length : (record digests key salt payload).length =
      salamanderHeaderSize + payload.length := by
    rw [record, length_append, header]
    simp [xorWords]
  have saltOf : (record digests key salt payload).take salamanderSaltSize = salt := by
    rw [record, append_assoc, ← sized, take_left]
  have hintOf : ((record digests key salt payload).drop salamanderSaltSize).take
      salamanderHintSize = digests.hint key salt := by
    rw [record, append_assoc, ← sized, drop_left, ← digests.hint_length key salt, take_left]
  have payloadOf : (record digests key salt payload).drop salamanderHeaderSize =
      xorWords payload (digests.stream key salt) := by
    rw [record, ← header, drop_left]
  unfold decode
  rw [if_neg (by omega)]
  simp only [saltOf, hintOf, payloadOf]
  split
  · next other cached =>
    obtain ⟨last, hinted⟩ := Option.filter_eq_some_iff.mp cached
    obtain rfl := apart other (.inr last) (of_decide_eq_true hinted).symm
    rw [xorWords_twice]
  split
  · next other found =>
    have member := (published.mem_keySet other).mp (mem_of_find?_eq_some found)
    have hinted := find?_some found
    obtain rfl := apart other (.inl member) (of_decide_eq_true hinted).symm
    rw [xorWords_twice]
  · next missing =>
    have member := (published.mem_keySet key).mpr registered
    have unhinted := find?_eq_none.mp missing key member
    simp at unhinted

@[simp] theorem cut_nil (size : Nat) : cut size [] = [] := by
  simp [cut]

theorem cut_cons {size : Nat} {bytes : Bytes} (positive : 0 < size) (some : bytes.length ≠ 0) :
    cut size bytes = bytes.take size :: cut size (bytes.drop size) := by
  rw [cut, if_neg some, if_neg (by omega)]

theorem cut_short {size : Nat} {bytes : Bytes} (some : bytes.length ≠ 0)
    (short : size = 0 ∨ bytes.length ≤ size) : cut size bytes = [bytes] := by
  by_cases none : size = 0
  · rw [cut, if_neg some, if_pos none]
  · have fits := short.resolve_left none
    rw [cut_cons (by omega) some, take_of_length_le fits, drop_of_length_le fits, cut_nil]

theorem length_of_cut {size i : Nat} {bytes part : Bytes}
    (partAt : (cut size bytes)[i]? = some part) : part.length ≠ 0 := by
  fun_induction cut size bytes generalizing i with
  | case1 => cases partAt
  | case2 bytes some =>
    cases i with
    | zero =>
      cases partAt
      exact some
    | succ i => cases partAt
  | case3 bytes some positive ih =>
    cases i with
    | zero =>
      cases partAt
      rw [length_take]
      omega
    | succ i => exact ih partAt

theorem length_record (digests : Digests) (key : Key) (payload : Bytes) {salt : Bytes}
    (sized : salt.length = salamanderSaltSize) :
    (record digests key salt payload).length = payload.length + salamanderHeaderSize := by
  simp only [record, length_append, sized, digests.hint_length, xorWords,
    length_mapIdx, salamanderHeaderSize]
  omega

section Segments

variable {digests : Digests} {key : Key} {salts : Nat → Bytes}
  (sized : ∀ i, (salts i).length = salamanderSaltSize)

include sized

theorem cut_encodeLoop {segmentSize : Nat} (positive : 0 < segmentSize) (i : Nat)
    (payload : Bytes) (capacity : Nat) {output : Bytes}
    (encodes : SalamanderConn.encodeLoop digests key salts positive i payload capacity =
      .ok output) :
    cut (segmentSize + salamanderHeaderSize) output =
      (cut segmentSize payload).mapIdx fun k part => record digests key (salts (i + k)) part := by
  fun_induction encodeLoop digests key salts positive i payload capacity generalizing output with
  | case1 i payload capacity some err failed => cases encodes
  | case2 i payload capacity some first encoded err failed ih => cases encodes
  | case3 i payload capacity some first encoded rest later ih =>
    cases encodes
    obtain ⟨nonempty, rfl⟩ := encode_ok encoded
    have length := length_record digests key (payload.take segmentSize) (sized i)
    rw [cut_cons positive (by omega), mapIdx_cons, cut_cons (by omega)
      (by rw [length_append]; omega)]
    by_cases long : segmentSize ≤ payload.length
    · rw [length_take_of_le long] at length
      rw [← length, take_left, drop_left, length, ih later]
      simp only [Nat.add_zero, Nat.add_assoc, Nat.add_comm 1]
    · have empty : payload.drop segmentSize = [] := drop_of_length_le (by omega)
      rw [empty, encodeLoop] at later
      cases later
      rw [length_take] at length
      rw [append_nil, take_of_length_le (by omega), drop_of_length_le (by omega),
        empty, cut_nil, cut_nil]
      rfl
  | case4 i payload capacity none =>
    cases encodes
    obtain rfl : payload = [] := eq_nil_of_length_eq_zero (by omega)
    rw [cut_nil, cut_nil]
    rfl

/-- Piece by piece, what is sent are the records of the parts of the payload. -/
theorem cut_encodeSegments {payload output : Bytes} {segmentSize : Int}
    (encodes : SalamanderConn.encodeSegments digests payload capacity key segmentSize salts =
      .ok output) :
    cut (wireSize segmentSize) output =
      (cut segmentSize.toNat payload).mapIdx fun i part => record digests key (salts i) part := by
  unfold encodeSegments at encodes
  split at encodes
  · next segmented =>
    have cuts := cut_encodeLoop sized segmented.1 0 payload capacity encodes
    rw [wireSize, if_pos (by omega), cuts]
    simp only [Nat.zero_add]
  · next whole =>
    obtain ⟨nonempty, rfl⟩ := encode_ok encodes
    have length := length_record digests key payload (sized 0)
    rw [cut_short nonempty (by omega), cut_short (by omega)]
    · rfl
    · rw [wireSize]
      split
      · exact .inr (by omega)
      · exact .inl rfl

end Segments

theorem growGSOSegmentSize_writes {overhead size : Nat}
    {oob grown : List (Except String ControlMessage)}
    (grows : growGSOSegmentSize overhead oob = .ok (size, grown)) :
    segmentSizeOf grown = (segmentSizeOf oob).map (· + overhead) ∧
      size = (segmentSizeOf oob).getD 0 := by
  fun_induction growGSOSegmentSize overhead oob generalizing grown size with
  | case1 =>
    cases grows
    exact ⟨rfl, rfl⟩
  | case2 => cases grows
  | case3 => cases grows
  | case4 => cases grows
  | case5 message rest isSegment old body fits =>
    cases grows
    have low : (old + overhead) % 256 + 256 * ((old + overhead) / 256) = old + overhead :=
      Nat.mod_add_div _ 256
    have high : (old + overhead) / 256 % 256 = (old + overhead) / 256 := Nat.mod_eq_of_lt (by omega)
    have still : ControlMessage.IsSegment
        { message with body := putUint16 (old + overhead) } := isSegment
    rw [segmentSizeOf, if_pos still, segmentSizeOf, if_pos isSegment, body]
    simp [putUint16, uint16, high, low]
  | case6 => cases grows
  | case7 message rest other size rest' found ih =>
    cases grows
    rw [segmentSizeOf, segmentSizeOf, if_neg other, if_neg other]
    exact ih found

/-- The pieces the kernel cuts at the size that was written back are, one by one,
the parts of the payload, and any reachable receiver with the key decodes them. -/
theorem segments_round_trip (digests : Digests) (payload : Bytes) (capacity : Nat) (key : Key)
    (segmentSize : Int) (salts : Nat → Bytes) {output : Bytes}
    (sized : ∀ i, (salts i).length = salamanderSaltSize)
    (encodes : SalamanderConn.encodeSegments digests payload capacity key segmentSize salts =
      .ok output) :
    (cut (wireSize segmentSize) output).length = (cut segmentSize.toNat payload).length ∧
      (∀ i piece part, (cut (wireSize segmentSize) output)[i]? = some piece →
        (cut segmentSize.toNat payload)[i]? = some part →
        ∀ c room, Reachable digests c → 0 < c.refs key → HintsApart digests c key (salts i) →
          part.length ≤ room → (c.decode digests piece room).1 = some (part, key)) ∧
      ∀ oob grown size, growGSOSegmentSize salamanderHeaderSize oob = .ok (size, grown) →
        size = (segmentSizeOf oob).getD 0 ∧
          segmentSizeOf grown = (segmentSizeOf oob).map (· + salamanderHeaderSize) ∧
          (0 < size → segmentSizeOf grown = some (wireSize size)) := by
  have pieces := cut_encodeSegments sized encodes
  refine ⟨by rw [pieces, length_mapIdx], ?_, ?_⟩
  · intro i piece part pieceAt partAt c room reachable registered apart fits
    rw [pieces, getElem?_mapIdx, partAt] at pieceAt
    cases pieceAt
    refine decode_record reachable.published registered apart (sized i) ?_ fits
    exact length_of_cut partAt
  · intro oob grown size grows
    obtain ⟨written, rfl⟩ := growGSOSegmentSize_writes grows
    refine ⟨rfl, written, fun positive => ?_⟩
    cases found : segmentSizeOf oob with
    | none =>
      rw [found] at positive
      cases positive
    | some old =>
      rw [found] at positive
      rw [written, found, wireSize, if_pos (by exact_mod_cast positive)]
      rfl

/-- A payload of three bytes, sent two by two, with the message that tells the kernel so. -/
theorem segments_round_trip_two :
    ∃ output, SalamanderConn.encodeSegments zeroDigests [1, 2, 3] 64 zeroKey 2
        (fun _ => List.replicate 8 0) = .ok output ∧
      (cut 18 output).length = 2 ∧ (∀ piece, (cut 18 output)[1]? = some piece →
        (zeroConn.decode zeroDigests piece 1).1 = some ([3], zeroKey)) ∧
      ∃ grown, growGSOSegmentSize salamanderHeaderSize [.ok ⟨0, 8, []⟩, .ok ⟨17, 103, [2, 0]⟩] =
          .ok (2, grown) ∧ segmentSizeOf grown = some 18 := by
  have parts : cut 2 [1, 2, 3] = [[1, 2], [3]] := by
    simp [cut_cons]
  have encodes : encodeSegments zeroDigests [1, 2, 3] 64 zeroKey 2
      (fun _ => List.replicate 8 0) = .ok (List.replicate 16 0 ++ [1, 2] ++
        (List.replicate 16 0 ++ [3])) := by
    rw [encodeSegments]
    simp [encodeLoop, encode]
    decide
  obtain ⟨length, decodes, grows⟩ := segments_round_trip zeroDigests [1, 2, 3] 64 zeroKey 2
    (fun _ => List.replicate 8 0) (fun _ => length_replicate) encodes
  refine ⟨_, encodes, ?_, ?_, _, rfl, (grows [.ok ⟨0, 8, []⟩, .ok ⟨17, 103, [2, 0]⟩] _ 2 rfl).2.1⟩
  · exact length.trans (congrArg List.length parts)
  · intro piece pieceAt
    refine decodes 1 piece [3] pieceAt (congrArg (·[1]?) parts) zeroConn 1 (.wrap _) ?_ ?_ ?_
    · simp [zeroConn, wrap_refs]
    · rintro other (known | cached) _
      · by_contra different
        simp [zeroConn, wrap_refs, different] at known
      · cases cached
    · exact Nat.le_refl 1

end WgQuic.Obfs
