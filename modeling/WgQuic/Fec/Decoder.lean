import Mathlib.Data.List.AList
import WgQuic.Fec.Encoder
import WgQuic.Lib.IndexedHeap

/-!
# The FEC decoder

One receiving direction.  Times are nanoseconds since the zero instant, so
`0` is the unset deadline.  A group stores at most `maxDataShards` data and
`maxParityShards` parity shards, because larger indices are refused before
they are stored.
-/

namespace WgQuic.Fec

abbrev Time := Int

def groupTTL : Int := 3000000000
def completionGrace : Int := 10000000
def maxReceiveGroups : Nat := 1024
def maxCompletedGroups : Nat := 4096

/-- `Time.Sub`, which saturates at the range of a duration. -/
def Time.sub (left right : Time) : Int :=
  max (-2 ^ 63) (min (2 ^ 63 - 1) (left - right))

theorem Time.sub_mono {now later created older : Time} (order : now ≤ later)
    (age : older ≤ created) : Time.sub now created ≤ Time.sub later older :=
  max_le_max (le_refl _) (min_le_min (le_refl _) (Int.sub_le_sub order age))

structure Feedback where
  epoch : Nat
  groupID : Nat
  missing : Nat
  recovered : Nat := 0
  total : Nat
deriving DecidableEq, Repr

structure Result where
  handled : Bool := false
  frames : List Bytes := []
  sendFeedback : List Feedback := []
  observedFeedback : Option Feedback := none

abbrev Bitmap := BitVec 64

def Bitmap.has (bitmap : Bitmap) (i : Nat) : Bool := bitmap.getLsbD i
def Bitmap.insert (bitmap : Bitmap) (i : Nat) : Bitmap :=
  bitmap ||| (1#64 <<< i)
def Bitmap.erase (bitmap : Bitmap) (i : Nat) : Bitmap :=
  bitmap &&& ~~~(1#64 <<< i)

structure ReceiveGroup where
  created : Time
  epoch : Nat
  groupID : Nat
  k : Nat := 0
  r : Nat := 0
  data : Nat → Option Bytes := fun _ => none
  parity : Nat → Option Bytes := fun _ => none
  delivered : Bitmap := 0
  reconstructed : Bitmap := 0
  closed : Bool := false

structure CompletedGroup where
  finalized : Time
  epoch : Nat
  k : Nat
  delivered : Bitmap
  reconstructed : Bitmap
  missing : Nat
  recovered : Nat

/-- An element of `groupExpiry`: the fields its order reads. -/
structure ExpiryEntry where
  created : Time
  groupID : Nat
deriving DecidableEq

def ExpiryEntry.less (left right : ExpiryEntry) : Bool :=
  if left.created = right.created then left.groupID < right.groupID
  else left.created < right.created

def ReceiveGroup.expiryEntry (group : ReceiveGroup) : ExpiryEntry :=
  { created := group.created, groupID := group.groupID }

structure Decoder where
  groups : AList (fun _ : Nat => ReceiveGroup) := ∅
  groupExpiry : IndexedHeap ExpiryEntry := {}
  completed : AList (fun _ : Nat => CompletedGroup) := ∅
  lastGroupID : Nat := 0
  nextExpiry : Time := 0

/-! ## Completing a group -/

def ReceiveGroup.receivedData (group : ReceiveGroup) : Nat :=
  (List.range group.k).countP fun i => (group.data i).isSome

def ReceiveGroup.receivedParity (group : ReceiveGroup) : Nat :=
  (List.range group.r).countP fun i => (group.parity i).isSome

def ReceiveGroup.feedback (group : ReceiveGroup) (missing recovered : Nat) : Feedback :=
  { epoch := group.epoch, groupID := group.groupID
    missing := missing % 2 ^ 16, recovered := recovered % 2 ^ 16
    total := group.k % 2 ^ 16 }

def ReceiveGroup.setDimensions (group : ReceiveGroup) (k r : Nat) : Except String ReceiveGroup :=
  if k = 0 ∨ k > maxDataShards ∨ r > maxParityShards then
    .error "invalid FEC group dimensions"
  else if group.k ≠ 0 ∧ (group.k ≠ k ∨ group.r ≠ r) then
    .error "inconsistent FEC group dimensions"
  else .ok { group with k := k, r := r }

/-- `decodeDataShard`: the framed payload behind the length prefix. -/
def decodeDataShard (shard : Bytes) : Except String Bytes :=
  if shard.length < 2 then .error "reconstructed FEC shard is too short"
  else
    let length := bigEndian (shard.take 2)
    if length = 0 ∨ length > shard.length - 2 then
      .error "invalid reconstructed FEC frame length"
    else .ok ((shard.drop 2).take length)

def ReceiveGroup.shardSize (group : ReceiveGroup) : Nat :=
  shardSizeOf ((List.range maxDataShards).filterMap group.data ++
    (List.range maxParityShards).filterMap group.parity)

/-- The slots handed to `ReconstructData`. -/
def ReceiveGroup.shards (group : ReceiveGroup) : List (Option Bytes) :=
  (List.range group.k).map (fun i =>
      (group.data i).map (padShard · group.shardSize)) ++
    (List.range group.r).map (fun i =>
      (group.parity i).map (padShard · group.shardSize))

/-- The loop over the reconstructed slots.  An undecodable slot stops it
with an error and keeps what the earlier slots have already stored. -/
def ReceiveGroup.adopt (restored : List Bytes) : List Nat → ReceiveGroup → List Bytes →
      Except String (List Bytes) × ReceiveGroup
  | [], group, frames => (.ok frames, group)
  | i :: rest, group, frames =>
    if (group.data i).isSome then adopt restored rest group frames
    else
      match decodeDataShard (restored.getD i []) with
      | .error err => (.error err, group)
      | .ok frame =>
        let stored := { group with
          data := Function.update group.data i (some (restored.getD i []))
          reconstructed := group.reconstructed.insert i }
        if group.delivered.has i then adopt restored rest stored frames
        else
          adopt restored rest
            { stored with delivered := group.delivered.insert i }
            (frames ++ [frame])

structure Completion where
  frames : List Bytes := []
  feedback : Option Feedback := none
  final : Bool := false

def tryComplete (codec : Codec) (group : ReceiveGroup) : Except String Completion × ReceiveGroup :=
  if group.k = 0 then (.ok {}, group)
  else
    let missing := group.k - group.receivedData
    let available := group.receivedData + group.receivedParity
    let lost : Completion :=
      { feedback := some (group.feedback missing 0), final := true }
    if missing = 0 then
      if group.closed ∨ group.r = 0 then (.ok lost, group) else (.ok {}, group)
    else if available < group.k then
      if group.closed ∧ group.r = 0 then (.ok lost, group) else (.ok {}, group)
    else
      match codec.new group.k group.r with
      | some err => (.error err, group)
      | none =>
        match codec.reconstructData group.k group.r group.shards with
        | .error _ =>
          if group.closed then (.ok lost, group) else (.ok {}, group)
        | .ok restored =>
          match ReceiveGroup.adopt restored (List.range group.k) group [] with
          | (.error err, group) => (.error err, group)
          | (.ok frames, group) =>
            (.ok { frames := frames
                   feedback := some (group.feedback missing frames.length)
                   final := true }, group)

/-- What is kept of a group once it is finished. -/
def ReceiveGroup.complete (group : ReceiveGroup) (now : Time)
    (feedback : Feedback) : CompletedGroup :=
  { finalized := now, epoch := group.epoch, k := group.k
    delivered := group.delivered, reconstructed := group.reconstructed
    missing := feedback.missing, recovered := feedback.recovered }

/-! ## Expiry -/

namespace Decoder

def scheduleExpiry (d : Decoder) (at_ : Time) : Decoder :=
  if d.nextExpiry = 0 ∨ at_ < d.nextExpiry then { d with nextExpiry := at_ }
  else d

def removeGroup (d : Decoder) (group : ReceiveGroup) : Decoder :=
  { d with
    groups := d.groups.erase group.groupID
    groupExpiry := d.groupExpiry.remove ExpiryEntry.less
      (d.groupExpiry.position group.expiryEntry) }

def stalledFeedback (group : ReceiveGroup) : Feedback :=
  group.feedback (group.k - group.receivedData) 0

def expireGroups (now : Time) : List (Nat × ReceiveGroup) → Decoder → List Feedback × Decoder
  | [], d => ([], d)
  | (_, group) :: rest, d =>
    if Time.sub now group.created > groupTTL then
      let (feedback, d) := expireGroups now rest (d.removeGroup group)
      (if group.k > 0 then (stalledFeedback group :: feedback, d) else (feedback, d))
    else expireGroups now rest (d.scheduleExpiry (group.created + groupTTL))

def expireCompleted (now : Time) : List (Nat × CompletedGroup) → Decoder → List Feedback × Decoder
  | [], d => ([], d)
  | (id, done) :: rest, d =>
    if Time.sub now done.finalized > groupTTL then
      expireCompleted now rest { d with completed := d.completed.erase id }
    else if Time.sub now done.finalized > completionGrace then
      let (feedback, d) := expireCompleted now rest
        { d with completed := d.completed.erase id }
      ({ epoch := done.epoch, groupID := id, missing := done.missing
         recovered := done.recovered, total := done.k % 2 ^ 16 } :: feedback, d)
    else
      expireCompleted now rest (d.scheduleExpiry (done.finalized + completionGrace))

def expire (now : Time) (d : Decoder) : List Feedback × Decoder :=
  if d.nextExpiry = 0 ∨ ¬ now > d.nextExpiry then ([], d)
  else
    let (stalled, d) := expireGroups now
      (d.groups.entries.map fun entry => (entry.1, entry.2))
      { d with nextExpiry := 0 }
    let (reported, d) := expireCompleted now
      (d.completed.entries.map fun entry => (entry.1, entry.2)) d
    (stalled ++ reported, d)

/-- The `fastExpire` loop; each round removes the oldest group, so the number
of groups bounds it. -/
def fastExpireLoop (now : Time) : Nat → Decoder → List Feedback × Decoder
  | 0, d => ([], d)
  | fuel + 1, d =>
    match d.groupExpiry.items with
    | [] => ([], d)
    | oldest :: _ =>
      if (d.lastGroupID + 2 ^ 64 - oldest.groupID) % 2 ^ 64 < maxInterleave ∨
          Time.sub now oldest.created ≤ completionGrace then ([], d)
      else
        -- The queue holds the groups of the map themselves, so an entry
        -- always has its group.
        match d.groups.lookup oldest.groupID with
        | none => ([], d)
        | some group =>
          let report : Feedback :=
            if group.k > 0 then stalledFeedback group
            else { epoch := group.epoch, groupID := group.groupID
                   missing := 1, total := 0 }
          let (feedback, d) := fastExpireLoop now fuel (d.removeGroup group)
          (report :: feedback, d)

def fastExpire (now : Time) (d : Decoder) : List Feedback × Decoder :=
  fastExpireLoop now d.groupExpiry.size d

/-- `Expire`, called when no datagram arrives. -/
def expireIdle (now : Time) (d : Decoder) : List Feedback × Decoder :=
  let (stalled, d) := d.fastExpire now
  let (expired, d) := d.expire now
  (stalled ++ expired, d)

/-! ## Handling a datagram -/

def validFeedback (total missing recovered : Nat) : Bool :=
  if total = 0 then missing ≤ 1 ∧ recovered = 0
  else total ≤ maxDataShards ∧ recovered ≤ missing ∧ missing ≤ total

/-- A shard arriving after its group was finalized. -/
def handleLateShard (done : CompletedGroup) (p : Packet) : CompletedGroup × List Bytes :=
  if p.kind ≠ .data ∨ p.index ≥ done.k ∨ p.payload.length < 3 then (done, [])
  else
    match decodeDataShard p.payload with
    | .error _ => (done, [])
    | .ok frame =>
      if done.reconstructed.has p.index then
        ({ done with
            missing := (done.missing + 2 ^ 16 - 1) % 2 ^ 16
            recovered := (done.recovered + 2 ^ 16 - 1) % 2 ^ 16
            reconstructed := done.reconstructed.erase p.index }, [])
      else if done.delivered.has p.index then (done, [])
      else
        ({ done with
            delivered := done.delivered.insert p.index
            missing := (done.missing + 2 ^ 16 - 1) % 2 ^ 16 }, [frame])

/-- The record-specific part of `Handle`: the stored group after the record
and the frame a data record delivers. -/
def receive (group : ReceiveGroup) (p : Packet) : Except String (List Bytes) × ReceiveGroup :=
  match p.kind with
  | .data =>
    if p.index ≥ maxDataShards ∨ p.payload.length < 3 then
      (.error "invalid FEC data shard", group)
    else
      let stored := (group.data p.index).getD p.payload
      let group := { group with
        data := Function.update group.data p.index (some stored) }
      if group.delivered.has p.index then (.ok [], group)
      else
        match decodeDataShard stored with
        | .error err => (.error err, group)
        | .ok frame =>
          (.ok [frame], { group with delivered := group.delivered.insert p.index })
  | .parity =>
    match group.setDimensions p.k p.r with
    | .error err => (.error err, group)
    | .ok group =>
      if p.index ≥ group.r ∨ p.payload = [] then
        (.error "invalid FEC parity shard", group)
      else
        (.ok [], { group with
          parity := Function.update group.parity p.index
            (some ((group.parity p.index).getD p.payload)) })
  | .close =>
    match group.setDimensions p.k p.r with
    | .error err => (.error err, group)
    | .ok group => (.ok [], { group with closed := true })
  | .feedback => (.ok [], group)

def limitCompleted (d : Decoder) : Decoder :=
  if d.completed.entries.length < maxCompletedGroups then d
  else
    let oldest := d.completed.entries.foldl
      (fun (best : Nat × Time) entry =>
        if best.2 = 0 ∨ entry.2.finalized < best.2 then
          (entry.1, entry.2.finalized)
        else best) (0, 0)
    { d with completed := d.completed.erase oldest.1 }

def storeGroup (d : Decoder) (group : ReceiveGroup) : Decoder :=
  { d with groups := d.groups.insert group.groupID group }

/-- Move a finished group to the completed map. -/
def finishGroup (now : Time) (d : Decoder) (group : ReceiveGroup) (feedback : Feedback) : Decoder :=
  let d := (d.removeGroup group).limitCompleted
  scheduleExpiry
    { d with completed :=
        d.completed.insert group.groupID (group.complete now feedback) }
    (now + completionGrace)

/-- Enter a new group into the map and the expiry queue. -/
def createGroup (now : Time) (d : Decoder) (group : ReceiveGroup) : Decoder :=
  let d := d.storeGroup group
  scheduleExpiry
    { d with groupExpiry :=
        d.groupExpiry.push ExpiryEntry.less group.expiryEntry }
    (now + groupTTL)

/-- The group of a record, created on first sight. -/
def openGroup (now : Time) (d : Decoder) (p : Packet) : Except String ReceiveGroup × Decoder :=
  match d.groups.lookup p.groupID with
  | some group => (.ok group, d)
  | none =>
    if d.groups.entries.length ≥ maxReceiveGroups then
      (.error "too many incomplete FEC groups", d)
    else
      let group : ReceiveGroup :=
        { created := now, epoch := p.epoch, groupID := p.groupID }
      (.ok group, d.createGroup now group)

/-- The rest of `Handle` for a record of an incomplete group. -/
def handleRecord (codec : Codec) (now : Time) (d : Decoder)
    (group : ReceiveGroup) (p : Packet) (result : Result) :
    Result × Option String × Decoder :=
  if group.epoch ≠ p.epoch then
    (result, some "FEC epoch changed within group", d)
  else
    match receive group p with
    | (.error err, group) => (result, some err, d.storeGroup group)
    | (.ok frames, group) =>
      let result := { result with frames := result.frames ++ frames }
      match tryComplete codec group with
      | (.error err, group) => (result, some err, d.storeGroup group)
      | (.ok completion, group) =>
        let result := { result with
          frames := result.frames ++ completion.frames }
        match completion.feedback, completion.final with
        | some feedback, true => (result, none, d.finishGroup now group feedback)
        | _, _ => (result, none, d.storeGroup group)

def handle (codec : Codec) (now : Time) (d : Decoder) (datagram : Bytes) :
    Result × Option String × Decoder :=
  match parsePacket datagram with
  | .error err => ({ handled := true }, some err, d)
  | .ok none => ({ handled := false }, none, d)
  | .ok (some p) =>
    let result : Result := { handled := true }
    if p.kind = .feedback then
      if validFeedback p.k p.index p.r then
        ({ result with observedFeedback := some {
            epoch := p.epoch, groupID := p.groupID, missing := p.index
            recovered := p.r, total := p.k } }, none, d)
      else (result, some "invalid FEC feedback counters", d)
    else
      let (expired, d) := d.expire now
      let d := { d with lastGroupID := max d.lastGroupID p.groupID }
      let (stalled, d) := d.fastExpire now
      let result := { result with sendFeedback := expired ++ stalled }
      match d.completed.lookup p.groupID with
      | some done =>
        if done.epoch ≠ p.epoch then
          (result, some "FEC epoch changed within completed group", d)
        else
          let (done, frames) := handleLateShard done p
          ({ result with frames := frames }, none,
            { d with completed := d.completed.insert p.groupID done })
      | none =>
        match d.openGroup now p with
        | (.error err, d) => (result, some err, d)
        | (.ok group, d) => d.handleRecord codec now group p result

end Decoder

end WgQuic.Fec
