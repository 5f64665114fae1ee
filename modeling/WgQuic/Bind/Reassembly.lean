import WgQuic.Bind.Framing
import WgQuic.Lib.Collector

/-!
# Fragments in any order

Frames of many datagrams and sessions arrive dropped, permuted, repeated and
interleaved.  For each datagram the reassembler collects the fragments that have
arrived since the datagram was complete the last time, and the moment they are
all there it returns the datagram.
-/

namespace WgQuic.Bind

open Fec (Bytes Time)
open List Collector

/-- A datagram of a session and the frames it was cut into. -/
structure Sent where
  sessionID : Nat
  packetID : Nat
  packet : Bytes
  fragmentData : Int
  frames : List Bytes
  fits : packetID < 2 ^ 64
  fragmented : fragmentPacketSized packet packetID fragmentData = .ok frames

namespace Sent

variable (sent : Sent)

def key : ReassemblyKey :=
  { sessionID := sent.sessionID, packetID := sent.packetID }

def count : Nat := sent.frames.length

def chunk (i : Nat) : Bytes := Bind.chunk sent.packet sent.fragmentData.toNat i

def fragment (i : Nat) : Fragment :=
  { packetID := sent.packetID, index := i, count := sent.count
    total := sent.packet.length, data := sent.chunk i }

def all : Finset Nat := Finset.range sent.count

theorem cut : Fragmented sent.packet sent.packetID sent.fragmentData.toNat sent.count sent.frames :=
  fragmentPacketSized_ok sent.fragmented

theorem count_positive : 0 < sent.count := by
  have covers := sent.cut.covers
  have nonempty := sent.cut.nonempty
  by_contra none_
  rw [Nat.eq_zero_of_not_pos none_] at covers
  omega

theorem all_nonempty : sent.all.Nonempty := ⟨0, Finset.mem_range.mpr sent.count_positive⟩

variable {i : Nat}

theorem chunk_positive (bound : i < sent.count) : 0 < (sent.chunk i).length :=
  sent.cut.chunk_positive bound

theorem chunk_ne_nil (bound : i < sent.count) : sent.chunk i ≠ [] :=
  length_pos_iff.mp (sent.chunk_positive bound)

/-- A frame of the datagram reads as one of its fragments. -/
theorem parse_mem {frame : Bytes} (member : frame ∈ sent.frames) :
    ∃ i < sent.count, parseFragment frame = .ok (sent.fragment i) := by
  rw [sent.cut.frames_eq, mem_map] at member
  obtain ⟨i, range, rfl⟩ := member
  have bound := mem_range.mp range
  exact ⟨i, bound, sent.cut.parse sent.fits bound⟩

theorem exists_frame (bound : i < sent.count) :
    ∃ frame ∈ sent.frames, parseFragment frame = .ok (sent.fragment i) := by
  refine ⟨_, ?_, sent.cut.parse sent.fits bound⟩
  rw [sent.cut.frames_eq]
  exact mem_map.mpr ⟨i, mem_range.mpr bound, rfl⟩

theorem length_eq_sum : sent.packet.length = ∑ i ∈ sent.all, (sent.chunk i).length := by
  have joined := congrArg List.length sent.cut.flatMap_chunks
  rw [length_flatMap] at joined
  rw [← joined, all, ← toFinset_range, sum_toFinset _ nodup_range]
  rfl

end Sent

/-- The fragments of `pending` are in the group, and no others. -/
structure Reassembly.Collects (sent : Sent) (now : Time)
    (pending : Finset Nat) (group : Reassembly) : Prop where
  created : group.created = now
  key : group.key = sent.key
  total : group.total = sent.packet.length
  count : group.count = sent.count
  shards : group.shards = (List.range sent.count).map fun i =>
    if i ∈ pending then some (sent.chunk i) else none
  seen : group.seen = pending.card
  bytes : group.bytes = ∑ i ∈ pending, (sent.chunk i).length

namespace Reassembly.Collects

variable {sent : Sent} {now : Time} {pending : Finset Nat} {group : Reassembly}

/-- The rest of the datagram has room for the fragments that are missing. -/
theorem room (subset : insert i pending ⊆ sent.all) (fresh : i ∉ pending) :
    ∑ j ∈ pending, (sent.chunk j).length + (sent.chunk i).length +
        sent.count ≤ sent.packet.length + pending.card + 1 := by
  have split_ := Finset.sum_sdiff (f := fun j => (sent.chunk j).length) subset
  have rest : (sent.all \ insert i pending).card ≤
      ∑ j ∈ sent.all \ insert i pending, (sent.chunk j).length := by
    rw [Finset.card_eq_sum_ones]
    apply Finset.sum_le_sum
    intro j member
    have bound := Finset.mem_range.mp (Finset.mem_sdiff.mp member).1
    exact sent.chunk_positive bound
  have counted := Finset.card_sdiff_add_card_eq_card subset
  rw [Finset.card_insert_of_notMem fresh, Sent.all, Finset.card_range] at counted
  rw [Finset.sum_insert fresh, ← sent.length_eq_sum] at split_
  rw [Sent.all] at rest split_
  omega

section

variable (collects : group.Collects sent now pending)

include collects

theorem shard {i : Nat} (bound : i < sent.count) :
    group.shards.getD i none = if i ∈ pending then some (sent.chunk i) else none := by
  rw [collects.shards]
  simp [bound]

theorem entry : group.entry = { created := now, key := sent.key } := by
  rw [Reassembly.entry, collects.created, collects.key]

theorem joined (filled : pending = sent.all) : group.shards.flatMap (·.getD []) = sent.packet := by
  rw [collects.shards, flatMap_map, ← sent.cut.flatMap_chunks]
  apply flatMap_congr
  intro i member
  have present : i ∈ pending := by
    rw [filled, Sent.all, Finset.mem_range]
    exact mem_range.mp member
  simp [present, Sent.chunk]

theorem enter {i : Nat} (bound : i < sent.count) (fresh : i ∉ pending) :
    Reassembly.Collects sent now (insert i pending)
      (Reassembler.enter group (sent.fragment i)) := by
  refine ⟨collects.created, collects.key, collects.total, collects.count, ?_, ?_, ?_⟩
  · simp only [Reassembler.enter, Sent.fragment]
    rw [collects.shards, Reassembler.copyShard, if_neg (sent.chunk_ne_nil bound)]
    apply ext_getElem
    · simp
    · intro j left right
      by_cases same : i = j
      · subst same
        simp
      · simp [same, Ne.symm same]
  · rw [Finset.card_insert_of_notMem fresh, Reassembler.enter, collects.seen]
  · simp only [Reassembler.enter, Sent.fragment]
    rw [Finset.sum_insert fresh, collects.bytes, Nat.add_comm]

end

end Reassembly.Collects

namespace Reassembler

variable {group : Reassembly} {now : Time} {pending : Finset Nat} {sent : Sent} {i : Nat}
  {r : Reassembler}

theorem finish_incomplete (r : Reassembler) (collects : group.Collects sent now pending)
    (lacking : pending ⊂ sent.all) :
    r.finish group = (.ok none, { r with groups := r.groups.insert sent.key group }) := by
  have unfinished : group.seen ≠ group.count := by
    have card := Finset.card_lt_card lacking
    rw [Sent.all, Finset.card_range] at card
    rw [collects.seen, collects.count]
    exact Nat.ne_of_lt card
  rw [finish, if_pos unfinished, collects.key]

theorem finish_complete (r : Reassembler) (collects : group.Collects sent now sent.all) :
    r.finish group = (.ok (some sent.packet),
      r.removeLocked { created := now, key := sent.key }) := by
  have complete : ¬group.seen ≠ group.count := by
    rw [collects.seen, collects.count, Sent.all]
    simp
  have whole : ¬group.bytes ≠ group.total := by
    rw [collects.bytes, collects.total, sent.length_eq_sum]
    simp
  rw [finish, if_neg complete, if_neg whole, collects.entry, collects.joined rfl]

/-- A fragment enters its group, which is finished with the last one. -/
theorem addToGroup_collects (r : Reassembler) (collects : group.Collects sent now pending)
    (lacking : pending ⊂ sent.all) (bound : i < sent.count) :
    ∃ after : Reassembly, after.Collects sent now (insert i pending) ∧
      r.addToGroup group (sent.fragment i) = if insert i pending = sent.all then
          (.ok (some sent.packet), r.removeLocked { created := now, key := sent.key })
        else
          (.ok none, { r with groups := r.groups.insert sent.key after }) := by
  have member : i ∈ sent.all := Finset.mem_range.mpr bound
  have subset : insert i pending ⊆ sent.all := Finset.insert_subset member lacking.subset
  have matching : ¬(group.total ≠ (sent.fragment i).total ∨
      group.count ≠ (sent.fragment i).count) := by
    simp [collects.total, collects.count, Sent.fragment]
  have slot : group.shards.getD (sent.fragment i).index none =
      if i ∈ pending then some (sent.chunk i) else none :=
    collects.shard bound
  rw [addToGroup, if_neg matching]
  by_cases known : i ∈ pending
  · -- A repeated fragment of a datagram that is not complete.
    have same : insert i pending = pending := Finset.insert_eq_of_mem known
    rw [if_pos known] at slot
    refine ⟨group, same.symm ▸ collects, ?_⟩
    rw [if_neg (by rw [slot]; nofun), same, if_neg lacking.ne]
    exact r.finish_incomplete collects lacking
  · have fits : ¬((group.bytes + (sent.fragment i).data.length +
        group.count : Int) - group.seen - 1 > group.total) := by
      have room := Reassembly.Collects.room subset known
      rw [collects.bytes, collects.count, collects.seen, collects.total, Sent.fragment]
      dsimp only
      omega
    have entered := collects.enter bound known
    rw [if_neg known] at slot
    refine ⟨_, entered, ?_⟩
    rw [if_pos slot, if_neg fits]
    split
    · next filled =>
      rw [filled] at entered
      exact r.finish_complete entered
    · next unfilled =>
      exact r.finish_incomplete entered (Finset.ssubset_iff_subset_ne.mpr ⟨subset, unfilled⟩)

/-- Nothing in the table is older than `now`. -/
def Young (now : Time) (r : Reassembler) : Prop :=
  ∀ entry ∈ r.expiry.items, entry.created = now

theorem Young.removeLocked (young : r.Young now) (entry : ReassemblyEntry) :
    (r.removeLocked entry).Young now :=
  fun other member => young other (IndexedHeap.remove_subset _ _ _ member)

theorem Young.expireLocked (young : r.Young now) : r.expireLocked now = r := by
  unfold Reassembler.expireLocked
  cases r.expiry.size with
  | zero => rfl
  | succ fuel =>
    rw [expireLoop]
    split
    · rfl
    · next oldest rest items =>
      have created := young oldest (items ▸ mem_cons_self)
      rw [created, if_neg (by simp [Fec.Time.sub, reassemblyTTL])]

/-- What the table holds of a datagram. -/
def Stored (sent : Sent) (now : Time) (pending : Finset Nat) : Option Reassembly → Prop
  | none => pending = ∅
  | some group => pending ≠ ∅ ∧ group.Collects sent now pending

/-- What a table with `pending` fragments of a datagram makes of one more. -/
structure Takes (sent : Sent) (now : Time) (pending : Finset Nat) (i : Nat)
    (r : Reassembler) (result : Except String (Option Bytes) × Reassembler) :
    Prop where
  returned : result.1 = .ok (if insert i pending = sent.all then some sent.packet else none)
  young : result.2.Young now
  stored : Stored sent now (step sent.all pending i) (result.2.groups.lookup sent.key)
  others : ∀ key, key ≠ sent.key → result.2.groups.lookup key = r.groups.lookup key

theorem takes_addToGroup {base : Reassembler} (young : r.Young now)
    (others : ∀ key, key ≠ sent.key → r.groups.lookup key = base.groups.lookup key)
    (collects : group.Collects sent now pending) (lacking : pending ⊂ sent.all)
    (bound : i < sent.count) :
    Takes sent now pending i base (r.addToGroup group (sent.fragment i)) := by
  obtain ⟨after, entered, result⟩ := r.addToGroup_collects collects lacking bound
  by_cases filled : insert i pending = sent.all
  · rw [if_pos filled] at result
    rw [result]
    refine ⟨by rw [if_pos filled], young.removeLocked _, ?_, ?_⟩
    · rw [step, if_pos filled, removeLocked, AList.lookup_erase]
      rfl
    · intro key other
      exact (AList.lookup_erase_ne other).trans (others key other)
  · rw [if_neg filled] at result
    rw [result]
    refine ⟨by rw [if_neg filled], young, ?_, ?_⟩
    · rw [step, if_neg filled, AList.lookup_insert]
      exact ⟨Finset.insert_ne_empty i pending, entered⟩
    · intro key other
      rw [AList.lookup_insert_ne other]
      exact others key other

theorem add_takes (young : r.Young now)
    (stored : Stored sent now pending (r.groups.lookup sent.key)) (lacking : pending ⊂ sent.all)
    (room : r.groups.entries.length < maxReassemblies) (bound : i < sent.count) (owned : Bool) :
    Takes sent now pending i r (r.add now sent.sessionID (sent.fragment i) owned) := by
  rw [add]
  by_cases single : (sent.fragment i).count = 1
  · have one : sent.count = 1 := single
    have first : i = 0 := by omega
    subst first
    have whole : sent.chunk 0 = sent.packet := by
      have joined := sent.cut.flatMap_chunks
      rw [one] at joined
      simpa [Sent.chunk] using joined
    have empty : pending = ∅ := by
      rw [Sent.all, one] at lacking
      exact Finset.ssubset_singleton_iff.mp lacking
    have filled : insert 0 pending = sent.all := by
      rw [empty, Sent.all, one]
      rfl
    have absent : r.groups.lookup sent.key = none := by
      cases found : r.groups.lookup sent.key with
      | none => rfl
      | some group =>
        rw [found] at stored
        exact (stored.1 empty).elim
    rw [if_pos single, if_neg (by simp [Sent.fragment, whole])]
    refine ⟨?_, young, ?_, fun _ _ => rfl⟩
    · rw [if_pos filled, ← whole]
      rfl
    · rw [step, if_pos filled, absent]
      rfl
  · rw [if_neg single, young.expireLocked]
    dsimp only
    cases found : r.groups.lookup sent.key with
    | some group =>
      rw [show r.groups.lookup ⟨sent.sessionID, (sent.fragment i).packetID⟩ = some group from found]
      rw [found] at stored
      exact takes_addToGroup young (fun _ _ => rfl) stored.2 lacking bound
    | none =>
      rw [show r.groups.lookup ⟨sent.sessionID, (sent.fragment i).packetID⟩ = none from found]
      rw [found] at stored
      rw [if_neg (Nat.not_le.mpr room)]
      cases stored
      refine takes_addToGroup ?_ ?_ ⟨rfl, rfl, rfl, rfl, ?_, rfl, rfl⟩ lacking bound
      · intro entry member
        have entries := (IndexedHeap.push_perm _ _ _).subset member
        rcases mem_cons.mp entries with rfl | member
        · rfl
        · exact young entry member
      · intro key other
        exact AList.lookup_insert_ne other
      · simp [Sent.fragment, map_const']

end Reassembler

/-! ## Arrivals -/

structure Arrival where
  sessionID : Nat
  frame : Bytes
  owned : Bool

/-- `parseFragment` and, when it succeeds, `add`. -/
def Reassembler.feed (now : Time) (r : Reassembler) (arrival : Arrival) :
    Except String (Option Bytes) × Reassembler :=
  match parseFragment arrival.frame with
  | .error err => (.error err, r)
  | .ok f => r.add now arrival.sessionID f arrival.owned

/-- The reassembler after the arrivals, all at one time. -/
def reassemblerAfter (now : Time) (arrivals : List Arrival) : Reassembler :=
  arrivals.foldl (fun r arrival => (r.feed now arrival).2) {}

/-- The arrival is a frame of the datagram. -/
def Arrival.Of (sent : Sent) (arrival : Arrival) : Prop :=
  arrival.sessionID = sent.sessionID ∧ arrival.frame ∈ sent.frames

instance (sent : Sent) (arrival : Arrival) : Decidable (arrival.Of sent) :=
  inferInstanceAs (Decidable (_ ∧ _))

/-- How often an arrival of the datagram returns it. -/
def Sent.returns (sent : Sent) (now : Time) : Reassembler → List Arrival → Nat
  | _, [] => 0
  | r, arrival :: rest =>
    (if arrival.Of sent ∧ (r.feed now arrival).1.toOption = some (some sent.packet) then 1
      else 0) + sent.returns now (r.feed now arrival).2 rest

theorem Sent.returns_concat (sent : Sent) (now : Time)
    (arrivals : List Arrival) (arrival : Arrival) :
    sent.returns now {} (arrivals ++ [arrival]) = sent.returns now {} arrivals +
        if arrival.Of sent ∧ ((reassemblerAfter now arrivals).feed now arrival).1.toOption =
            some (some sent.packet) then 1 else 0 := by
  have general : ∀ (arrivals : List Arrival) (r : Reassembler),
      sent.returns now r (arrivals ++ [arrival]) = sent.returns now r arrivals +
          if arrival.Of sent ∧ ((arrivals.foldl
            (fun r arrival => (r.feed now arrival).2) r).feed now
              arrival).1.toOption = some (some sent.packet) then 1 else 0 := by
    intro arrivals
    induction arrivals with
    | nil =>
      intro r
      simp only [returns, nil_append, foldl_nil, Nat.add_zero, Nat.zero_add]
      rfl
    | cons first rest ih =>
      intro r
      rw [cons_append, returns, ih, returns, Nat.add_assoc]
      rfl
  exact general arrivals {}

/-- The index of the fragment that an arrival is of a datagram. -/
def Sent.index? (sent : Sent) (arrival : Arrival) : Option Nat :=
  if arrival.sessionID = sent.sessionID then
    match parseFragment arrival.frame with
    | .ok f => if f.packetID = sent.packetID then some f.index else none
    | .error _ => none
  else none

/-- The fragments of a datagram that are waiting for the others. -/
def Sent.pending (sent : Sent) (arrivals : List Arrival) : Finset Nat :=
  Collector.pending sent.all (arrivals.filterMap sent.index?)

/-- Every datagram has an identifier of its own in its session. -/
def DistinctKeys (family : List Sent) : Prop :=
  ∀ left ∈ family, ∀ right ∈ family, left.key = right.key → left = right

section Run

variable {family : List Sent} {now : Time} {arrival : Arrival} {sent : Sent}
  {arrivals : List Arrival}

theorem Arrival.Of.index? (of : arrival.Of sent) : ∃ i < sent.count,
      parseFragment arrival.frame = .ok (sent.fragment i) ∧ sent.index? arrival = some i := by
  obtain ⟨i, bound, parsed⟩ := sent.parse_mem of.2
  refine ⟨i, bound, parsed, ?_⟩
  rw [Sent.index?, if_pos of.1, parsed]
  simp [Sent.fragment]

theorem Arrival.Of.index?_other {other : Sent} (of : arrival.Of sent)
    (different : other.key ≠ sent.key) : other.index? arrival = none := by
  obtain ⟨i, _, parsed, _⟩ := of.index?
  rw [Sent.index?]
  split
  · next session =>
    rw [parsed]
    have unequal : sent.packetID ≠ other.packetID := by
      intro same
      apply different
      rw [Sent.key, Sent.key, ← session, of.1, same]
    simp [Sent.fragment, unequal]
  · rfl

/-- The table holds the waiting fragments of every datagram. -/
structure Reassembler.Holds (family : List Sent) (now : Time)
    (arrivals : List Arrival) (r : Reassembler) : Prop where
  young : r.Young now
  stored : ∀ sent ∈ family,
    Reassembler.Stored sent now (sent.pending arrivals) (r.groups.lookup sent.key)

theorem Sent.pending_ssubset (member : sent ∈ family) (distinct : DistinctKeys family)
    (honest : ∀ arrival ∈ arrivals, ∃ sent ∈ family, arrival.Of sent) :
    sent.pending arrivals ⊂ sent.all := by
  apply Collector.pending_ssubset sent.all_nonempty
  intro i found
  obtain ⟨arrival, arrived, index⟩ := mem_filterMap.mp found
  obtain ⟨source, sourceMember, of⟩ := honest arrival arrived
  by_cases same : sent.key = source.key
  · obtain rfl := distinct sent member source sourceMember same
    obtain ⟨j, bound, _, indexed⟩ := of.index?
    rw [indexed] at index
    cases index
    exact Finset.mem_range.mpr bound
  · rw [of.index?_other same] at index
    cases index

theorem Reassembler.Holds.feed {r : Reassembler} (holds : r.Holds family now arrivals)
    (distinct : DistinctKeys family)
    (honest : ∀ arrival ∈ arrivals, ∃ sent ∈ family, arrival.Of sent)
    (room : r.groups.entries.length < maxReassemblies) (member : sent ∈ family)
    (of : arrival.Of sent) {i : Nat} (index : sent.index? arrival = some i) :
    (r.feed now arrival).1 = .ok (if insert i (sent.pending arrivals) = sent.all then
          some sent.packet else none) ∧
      (r.feed now arrival).2.Holds family now (arrivals ++ [arrival]) := by
  obtain ⟨j, bound, parsed, indexed⟩ := of.index?
  rw [indexed] at index
  cases index
  have takes := add_takes holds.young (holds.stored sent member)
    (Sent.pending_ssubset member distinct honest) room bound arrival.owned
  rw [Reassembler.feed, parsed, of.1]
  refine ⟨takes.returned, takes.young, ?_⟩
  intro other otherMember
  by_cases same : other.key = sent.key
  · obtain rfl := distinct other otherMember sent member same
    rw [Sent.pending, filterMap_append, filterMap_cons_some indexed]
    rw [filterMap_nil, pending_concat]
    exact takes.stored
  · rw [Sent.pending, filterMap_append, filterMap_cons_none (of.index?_other same), filterMap_nil,
      append_nil, takes.others other.key same]
    exact holds.stored other otherMember

/-- The arrivals fit the table. -/
def Roomy (now : Time) (arrivals : List Arrival) : Prop :=
  ∀ before arrival after, arrivals = before ++ arrival :: after →
    (reassemblerAfter now before).groups.entries.length < maxReassemblies

theorem Roomy.before {last : Arrival} (roomy : Roomy now (arrivals ++ [last])) :
    Roomy now arrivals := by
  intro before arrival after split
  exact roomy before arrival (after ++ [last]) (by simp [split])

theorem Roomy.of_take
    (each : ∀ n < arrivals.length, (reassemblerAfter now (arrivals.take n)).groups.entries.length <
      maxReassemblies) : Roomy now arrivals := by
  intro before arrival after split
  subst split
  simpa using each before.length (by simp)

theorem reassemblerAfter_holds (distinct : DistinctKeys family)
    (honest : ∀ arrival ∈ arrivals, ∃ sent ∈ family, arrival.Of sent) (roomy : Roomy now arrivals) :
    (reassemblerAfter now arrivals).Holds family now arrivals := by
  induction arrivals using List.reverseRecOn with
  | nil => exact ⟨nofun, fun _ _ => rfl⟩
  | append_singleton arrivals arrival ih =>
    have earlier : ∀ arrival ∈ arrivals, ∃ sent ∈ family, arrival.Of sent :=
      fun other member => honest other (mem_append_left _ member)
    obtain ⟨sent, member, of⟩ := honest arrival (by simp)
    obtain ⟨i, _, _, index⟩ := of.index?
    rw [reassemblerAfter, foldl_append]
    exact ((ih earlier roomy.before).feed distinct earlier
      (roomy arrivals arrival [] rfl) member of index).2

/-- Some arrival is this frame of the datagram. -/
def Sent.Occurs (sent : Sent) (frame : Bytes) (arrivals : List Arrival) : Prop :=
  ∃ arrival ∈ arrivals, arrival.sessionID = sent.sessionID ∧ arrival.frame = frame

instance (sent : Sent) (frame : Bytes) (arrivals : List Arrival) :
    Decidable (sent.Occurs frame arrivals) :=
  inferInstanceAs (Decidable (∃ arrival ∈ arrivals, _ ∧ _))

section

variable (member : sent ∈ family) (distinct : DistinctKeys family)
  (honest : ∀ arrival ∈ arrivals, ∃ sent ∈ family, arrival.Of sent)

include member distinct honest

theorem Sent.occurs_iff_mem : (∀ frame ∈ sent.frames, sent.Occurs frame arrivals) ↔
      ∀ i ∈ sent.all, i ∈ arrivals.filterMap sent.index? := by
  constructor
  · intro occurs i bound
    obtain ⟨frame, framed, parsed⟩ := sent.exists_frame (Finset.mem_range.mp bound)
    obtain ⟨arrival, arrived, session, rfl⟩ := occurs frame framed
    refine mem_filterMap.mpr ⟨arrival, arrived, ?_⟩
    rw [Sent.index?, if_pos session, parsed]
    simp [Sent.fragment]
  · intro indices frame framed
    rw [sent.cut.frames_eq, mem_map] at framed
    obtain ⟨i, range, rfl⟩ := framed
    have bound := mem_range.mp range
    obtain ⟨arrival, arrived, index⟩ := mem_filterMap.mp (indices i (Finset.mem_range.mpr bound))
    obtain ⟨source, sourceMember, of⟩ := honest arrival arrived
    by_cases same : sent.key = source.key
    · obtain rfl := distinct sent member source sourceMember same
      refine ⟨arrival, arrived, of.1, ?_⟩
      have framed := of.2
      rw [sent.cut.frames_eq, mem_map] at framed
      obtain ⟨j, jRange, framed⟩ := framed
      have parsed := sent.cut.parse sent.fits (mem_range.mp jRange)
      rw [framed] at parsed
      rw [Sent.index?, if_pos of.1, parsed] at index
      simp only [if_true] at index
      cases index
      exact framed.symm
    · rw [of.index?_other same] at index
      cases index

/-- What the next arrival returns. -/
theorem feed_after (roomy : Roomy now (arrivals ++ [arrival])) (of : arrival.Of sent) {i : Nat}
    (index : sent.index? arrival = some i) :
    ((reassemblerAfter now arrivals).feed now arrival).1 =
      .ok (if insert i (sent.pending arrivals) = sent.all then some sent.packet else none) :=
  ((reassemblerAfter_holds distinct honest roomy.before).feed distinct honest
    (roomy arrivals arrival [] rfl) member of index).1

/-- A datagram is not returned while one of its fragments is missing. -/
theorem Sent.returns_eq_zero (roomy : Roomy now arrivals) {absent : Nat}
    (needed : absent ∈ sent.all) (missing : absent ∉ arrivals.filterMap sent.index?) :
    sent.returns now {} arrivals = 0 := by
  induction arrivals using List.reverseRecOn with
  | nil => rfl
  | append_singleton arrivals arrival ih =>
    rw [filterMap_append, mem_append, not_or] at missing
    have earlier : ∀ arrival ∈ arrivals, ∃ sent ∈ family, arrival.Of sent :=
      fun other arrived => honest other (mem_append_left _ arrived)
    rw [Sent.returns_concat, ih earlier roomy.before missing.1, if_neg]
    rintro ⟨of, returned⟩
    obtain ⟨i, _, _, index⟩ := of.index?
    have unfilled : insert i (sent.pending arrivals) ≠ sent.all := by
      intro filled
      have collected := pending_eq_toFinset needed missing.1
      rw [← filled, Sent.pending, collected] at needed
      rw [filterMap_cons_some index] at missing
      simp only [Finset.mem_insert, mem_toFinset] at needed
      rcases needed with same | present
      · exact missing.2 (by simp [same])
      · exact missing.1 present
    rw [feed_after member distinct earlier roomy of index, if_neg unfilled] at returned
    cases returned

/-- A datagram whose fragments all arrive, and none of them after it is
complete, is returned once. -/
theorem Sent.returns_eq_one (roomy : Roomy now arrivals)
    (occurs : ∀ i ∈ sent.all, i ∈ arrivals.filterMap sent.index?)
    (last : ∀ before after, arrivals = before ++ after → (∀ i ∈ sent.all, i ∈ before.filterMap
      sent.index?) → ∀ arrival ∈ after, ¬arrival.Of sent) :
    sent.returns now {} arrivals = 1 := by
  induction arrivals using List.reverseRecOn with
  | nil =>
    obtain ⟨i, needed⟩ := sent.all_nonempty
    cases occurs i needed
  | append_singleton arrivals arrival ih =>
    have earlier : ∀ arrival ∈ arrivals, ∃ sent ∈ family, arrival.Of sent :=
      fun other arrived => honest other (mem_append_left _ arrived)
    rw [Sent.returns_concat]
    by_cases of : arrival.Of sent
    · -- The fragment that completes the datagram.
      obtain ⟨i, bound, _, index⟩ := of.index?
      have lacks : ∃ absent ∈ sent.all, absent ∉ arrivals.filterMap sent.index? := by
        by_contra complete
        push Not at complete
        exact last arrivals [arrival] rfl complete arrival (by simp) of
      obtain ⟨absent, needed, missing⟩ := lacks
      have filled : insert i (sent.pending arrivals) = sent.all := by
        rw [Sent.pending, pending_eq_toFinset needed missing]
        apply Finset.Subset.antisymm
        · refine Finset.insert_subset (Finset.mem_range.mpr bound) ?_
          rw [← pending_eq_toFinset needed missing]
          exact (Sent.pending_ssubset member distinct earlier).subset
        · intro j wanted
          have found := occurs j wanted
          rw [filterMap_append, filterMap_cons_some index] at found
          simpa [or_comm] using found
      rw [Sent.returns_eq_zero member distinct earlier roomy.before needed
        missing, feed_after member distinct earlier roomy of index, if_pos filled, if_pos ⟨of, rfl⟩]
    · obtain ⟨source, sourceMember, ofSource⟩ := honest arrival (by simp)
      have other : sent.key ≠ source.key := by
        intro same
        obtain rfl := distinct sent member source sourceMember same
        exact of ofSource
      have unindexed := ofSource.index?_other other
      rw [if_neg fun both => of both.1]
      refine ih earlier roomy.before ?_ ?_
      · intro i needed
        simpa [unindexed] using occurs i needed
      · intro before after split complete arrived arrivedAfter
        exact last before (after ++ [arrival]) (by simp [split]) complete
          arrived (mem_append_left _ arrivedAfter)

end

/-- No frame is refused, everything returned is the datagram the frame belongs
to, and a datagram is returned once when all its fragments arrive and none of
them after it is complete, and never when one is lost. -/
theorem fragments_round_trip (family : List Sent)
    (distinct : DistinctKeys family) (now : Time) (arrivals : List Arrival)
    (honest : ∀ arrival ∈ arrivals, ∃ sent ∈ family, arrival.Of sent)
    (roomy : Roomy now arrivals) :
    (∀ before arrival after, arrivals = before ++ arrival :: after →
      ∀ sent ∈ family, arrival.Of sent →
        ∃ returned, ((reassemblerAfter now before).feed now arrival).1 =
          .ok returned ∧ ∀ packet, returned = some packet → packet = sent.packet) ∧
      ∀ sent ∈ family, ((∀ frame ∈ sent.frames, sent.Occurs frame arrivals) →
          (∀ before after, arrivals = before ++ after →
            (∀ frame ∈ sent.frames, sent.Occurs frame before) →
              ∀ frame ∈ sent.frames, ¬sent.Occurs frame after) → sent.returns now {} arrivals = 1) ∧
        ((∃ frame ∈ sent.frames, ¬sent.Occurs frame arrivals) →
          sent.returns now {} arrivals = 0) := by
  constructor
  · intro before arrival after split sent member of
    have earlier : ∀ arrival ∈ before, ∃ sent ∈ family, arrival.Of sent :=
      fun other arrived => honest other (by simp [split, arrived])
    have upTo : Roomy now (before ++ [arrival]) := by
      intro first middle rest same
      exact roomy first middle (rest ++ after) (by
        rw [split, append_cons, same]
        simp)
    obtain ⟨i, _, _, index⟩ := of.index?
    refine ⟨_, feed_after member distinct earlier upTo of index, ?_⟩
    intro packet returned
    split at returned
    · cases returned
      rfl
    · cases returned
  · intro sent member
    have occursAll := Sent.occurs_iff_mem member distinct honest
    constructor
    · intro occurs last
      refine Sent.returns_eq_one member distinct honest roomy (occursAll.mp occurs) ?_
      intro before after split complete arrival arrived of
      have upTo : ∀ arrival ∈ before, ∃ sent ∈ family, arrival.Of sent :=
        fun other arrivedBefore => honest other (by simp [split, arrivedBefore])
      exact last before after split
        ((Sent.occurs_iff_mem member distinct upTo).mpr complete) arrival.frame
        of.2 ⟨arrival, arrived, of.1, rfl⟩
    · rintro ⟨frame, framed, absent⟩
      have lacks : ∃ i ∈ sent.all, i ∉ arrivals.filterMap sent.index? := by
        by_contra complete
        push Not at complete
        exact absent (occursAll.mpr complete frame framed)
      obtain ⟨i, needed, missing⟩ := lacks
      exact Sent.returns_eq_zero member distinct honest roomy needed missing

end Run

/-- Three bytes in two fragments. -/
def sentThree : Sent where
  sessionID := 7
  packetID := 5
  packet := [1, 2, 3]
  fragmentData := 2
  frames := [writeFragmentHeader 5 0 2 3 ++ [1, 2], writeFragmentHeader 5 1 2 3 ++ [3]]
  fits := by decide
  fragmented := rfl

/-- The second fragment comes first, and twice. -/
def reversedTwice : List Arrival :=
  [1, 1, 0].map fun i =>
    { sessionID := 7, frame := sentThree.frames.getD i [], owned := false }

theorem fragments_round_trip_reversed : sentThree.returns 0 {} reversedTwice = 1 := by
  have honest : ∀ arrival ∈ reversedTwice, ∃ sent ∈ [sentThree], arrival.Of sent := by
    decide
  refine ((fragments_round_trip [sentThree] ?_ 0 reversedTwice honest
    (Roomy.of_take (by decide +kernel))).2 sentThree (by simp)).1 ?_ ?_
  · intro left leftMember right rightMember _
    rw [mem_singleton.mp leftMember, mem_singleton.mp rightMember]
  · decide
  · have splits : ∀ n < 4,
        (∀ frame ∈ sentThree.frames, sentThree.Occurs frame (reversedTwice.take n)) →
        ∀ frame ∈ sentThree.frames, ¬sentThree.Occurs frame (reversedTwice.drop n) := by
      decide
    intro before after split
    have bound : before.length < 4 := by
      have length := congrArg List.length split
      rw [length_append] at length
      have three : reversedTwice.length = 3 := rfl
      omega
    simpa [split] using splits before.length bound

end WgQuic.Bind
