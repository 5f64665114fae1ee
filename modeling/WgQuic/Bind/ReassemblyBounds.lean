import Mathlib.Data.List.ReduceOption
import WgQuic.Bind.Isolation

/-!
# What the reassembly table holds

Whatever frames arrive, the table stays small, its heap stays in step with it, and
every group counts the bytes that it has and leaves room for those that it waits for.
-/

namespace WgQuic.Bind

open List

open Fec (Bytes Time)

theorem reduceOption_set {α : Type} {items : List (Option α)} {i : Nat}
    (empty : items[i]? = some none) (item : α) :
    (items.set i (some item)).reduceOption.Perm (item :: items.reduceOption) := by
  induction items generalizing i with
  | nil => cases empty
  | cons head rest ih =>
    cases i with
    | zero =>
      cases Option.some.inj empty
      exact .refl _
    | succ i =>
      have later := ih (i := i) empty
      cases head with
      | none => exact later
      | some first => exact (later.cons first).trans (.swap item first _)

structure Fragment.Valid (f : Fragment) : Prop where
  index : f.index < f.count
  total : f.total ≤ maxDatagramSize
  data : f.data ≠ []

theorem parseFragment_valid {frame : Bytes} {f : Fragment} (parsed : parseFragment frame = .ok f) :
    f.Valid := by
  have fits := (parseFragment_ok parsed).1
  exact ⟨fits.index, fits.total.2, length_pos_iff.mp fits.data.1⟩

/-- The counters are those of the shards that are stored. -/
structure Reassembly.Counted (group : Reassembly) : Prop where
  width : group.shards.length = group.count
  seen : group.seen = group.shards.reduceOption.length
  bytes : group.bytes = (group.shards.reduceOption.map List.length).sum

/-- A group that waits for more, with room for it. -/
structure Reassembly.Waiting (group : Reassembly) : Prop extends group.Counted where
  open_ : group.seen < group.count
  room : group.bytes + (group.count - group.seen) ≤ group.total

namespace Reassembler

variable {r after : Reassembler} {now : Time} {key : ReassemblyKey} {f : Fragment}
  {group : Reassembly}

theorem newGroup_counted (now : Time) (key : ReassemblyKey) (f : Fragment) :
    (newGroup now key f).Counted := by
  have nothing : (newGroup now key f).shards.reduceOption = [] := reduceOption_replicate_none
  refine ⟨length_replicate, ?_, ?_⟩
  · rw [nothing]
    rfl
  · rw [nothing]
    rfl

theorem counted_enter (counted : group.Counted) (valid : f.Valid) (index : f.index < group.count)
    (empty : group.shards.getD f.index none = none) : (enter group f).Counted := by
  have bound : f.index < group.shards.length := counted.width.symm ▸ index
  have place : group.shards[f.index]? = some none := by
    rw [getD_eq_getElem?_getD, getElem?_eq_getElem bound] at empty
    rw [getElem?_eq_getElem bound]
    exact congrArg some empty
  have stored : (Reassembler.enter group f).shards.reduceOption.Perm
      (f.data :: group.shards.reduceOption) := by
    change (group.shards.set f.index (copyShard f.data)).reduceOption.Perm _
    rw [copyShard, if_neg valid.data]
    exact reduceOption_set place f.data
  refine ⟨length_set.trans counted.width, ?_, ?_⟩
  · rw [stored.length_eq, length_cons, ← counted.seen]
    rfl
  · rw [(stored.map _).sum_eq, map_cons, sum_cons, ← counted.bytes, Nat.add_comm]
    rfl

/-- The datagram of a group is as long as the group has counted. -/
theorem length_shards (counted : group.Counted) :
    (group.shards.flatMap (·.getD [])).length = group.bytes := by
  rw [counted.bytes, length_flatMap]
  generalize group.shards = shards
  induction shards with
  | nil => rfl
  | cons shard rest ih =>
    rw [map_cons, sum_cons, ih]
    cases shard with
    | none => exact Nat.zero_add _
    | some data => rfl

/-- The datagram that a group gives is as long as announced, and a group that stays
still waits for something. -/
structure Answers (total : Nat) (alone : Except String (Option Bytes) × Option Reassembly) :
    Prop where
  packet : ∀ packet, alone.1 = .ok (some packet) → packet.length = total
  held : ∀ later, alone.2 = some later → later.Waiting

theorem finishAlone_answers (counted : group.Counted)
    (room : group.seen ≤ group.count ∧ group.bytes + (group.count - group.seen) ≤ group.total) :
    Answers group.total (finishAlone group) := by
  unfold finishAlone
  split
  · next more =>
    refine ⟨nofun, ?_⟩
    intro later kept
    obtain rfl := Option.some.inj kept
    exact ⟨counted, lt_of_le_of_ne room.1 more, room.2⟩
  split
  · exact ⟨nofun, nofun⟩
  next full =>
  refine ⟨?_, nofun⟩
  intro packet answer
  cases answer
  exact (length_shards counted).trans (not_not.mp full)

theorem addAlone_answers (valid : f.Valid) (counted : group.Counted)
    (stored : group.shards.getD f.index none ≠ none → group.Waiting) :
    Answers f.total (addAlone group f) := by
  unfold addAlone
  split
  · exact ⟨nofun, nofun⟩
  next same =>
  push Not at same
  obtain ⟨total, count⟩ := same
  rw [← total]
  split
  · next empty =>
    split
    · exact ⟨nofun, nofun⟩
    next fits =>
    have entered := counted_enter counted valid (count ▸ valid.index) empty
    have most : (enter group f).seen ≤ group.count := by
      rw [entered.seen, ← counted.width]
      exact (reduceOption_length_le _).trans_eq length_set
    apply finishAlone_answers entered
    simp only [enter] at most ⊢
    omega
  · next duplicate =>
    have waiting := stored duplicate
    exact finishAlone_answers counted ⟨waiting.open_.le, waiting.room⟩

/-- At most `maxReassemblies` groups, all of them waiting, in a sound table. -/
structure Bounded (r : Reassembler) : Prop where
  sound : r.Sound
  few : r.groups.entries.length ≤ maxReassemblies
  waiting : ∀ key group, r.groups.lookup key = some group → group.Waiting

/-- The keys are those of before, and perhaps one more. -/
theorem Steps.length_le {held : Option Reassembly} (steps : r.Steps key held after)
    (room : r.groups.lookup key ≠ none ∨ r.groups.entries.length < maxReassemblies)
    (few : r.groups.entries.length ≤ maxReassemblies) :
    after.groups.entries.length ≤ maxReassemblies := by
  have length : ∀ table : AList fun _ : ReassemblyKey => Reassembly,
      table.keys.length = table.entries.length := fun _ => length_map _
  have known : ∀ other, other ∈ after.groups.keys → other ≠ key → other ∈ r.groups.keys := by
    intro other listed different
    have present := AList.lookup_isSome.mpr (AList.mem_keys.mpr listed)
    rw [steps.elsewhere other different] at present
    exact AList.mem_keys.mp (AList.lookup_isSome.mp present)
  rcases room with present | less
  · have subset : after.groups.keys ⊆ r.groups.keys := by
      intro other listed
      by_cases same : other = key
      · rw [same]
        exact AList.mem_keys.mp (AList.lookup_isSome.mp (Option.isSome_iff_ne_none.mpr present))
      · exact known other listed same
    have shorter := (after.groups.keys_nodup.subperm subset).length_le
    rw [length, length] at shorter
    exact shorter.trans few
  · have subset : after.groups.keys ⊆ key :: r.groups.keys := by
      intro other listed
      by_cases same : other = key
      · exact same ▸ mem_cons_self
      · exact mem_cons_of_mem _ (known other listed same)
    have shorter := (after.groups.keys_nodup.subperm subset).length_le
    rw [length_cons, length, length] at shorter
    exact shorter.trans less

theorem Bounded.expireLocked (bounded : r.Bounded) (now : Time) : (r.expireLocked now).Bounded := by
  obtain ⟨sound, lookup⟩ := bounded.sound.expireLocked now
  refine ⟨sound, (length_expireLoop now _ r).trans bounded.few, ?_⟩
  intro key group known
  rw [lookup key, Option.filter_eq_some_iff] at known
  exact bounded.waiting key group known.1

theorem Bounded.add (bounded : r.Bounded) (now : Time) (sessionID : Nat) (valid : f.Valid)
    (owned : Bool) :
    (r.add now sessionID f owned).2.Bounded ∧
      ∀ packet, (r.add now sessionID f owned).1 = .ok (some packet) → packet.length = f.total := by
  by_cases single : f.count = 1
  · unfold Reassembler.add
    rw [if_pos single]
    split
    · exact ⟨bounded, nofun⟩
    next same =>
    refine ⟨bounded, ?_⟩
    intro packet answer
    cases answer
    exact not_not.mp same
  have expired := bounded.expireLocked now
  rcases bounded.sound.add_cases now sessionID f owned single with
    ⟨-, full⟩ | ⟨room, answer, steps⟩
  · rw [full]
    exact ⟨expired, nofun⟩
  rw [← (bounded.sound.expireLocked now).2] at answer steps
  have answers : Answers f.total (addAlone (((r.expireLocked now).groups.lookup
      ⟨sessionID, f.packetID⟩).getD (newGroup now ⟨sessionID, f.packetID⟩ f)) f) := by
    cases known : (r.expireLocked now).groups.lookup ⟨sessionID, f.packetID⟩ with
    | some group =>
      have waiting := expired.waiting _ group known
      exact addAlone_answers valid waiting.toCounted fun _ => waiting
    | none =>
      refine addAlone_answers valid (newGroup_counted _ _ _) fun stored => absurd ?_ stored
      change (List.replicate f.count none).getD f.index none = none
      rw [getD_eq_getElem?_getD, getElem?_replicate_of_lt valid.index]
      rfl
  refine ⟨⟨steps.sound, steps.length_le room expired.few, ?_⟩, ?_⟩
  · intro key group known
    by_cases here : key = ⟨sessionID, f.packetID⟩
    · rw [here, steps.here] at known
      exact answers.held group known
    · rw [steps.elsewhere key here] at known
      exact expired.waiting key group known
  · rw [answer]
    exact answers.packet

theorem Bounded.discardSession (bounded : r.Bounded) {visit : List Reassembly → List Reassembly}
    (all : ∀ groups, (visit groups).Perm groups) (sessionID : Nat) :
    (r.discardSession visit sessionID).Bounded := by
  obtain ⟨sound, lookup⟩ := bounded.sound.discardSession all sessionID
  refine ⟨sound, ?_, ?_⟩
  · have shorter : ∀ (groups : List Reassembly) (r : Reassembler),
        (groups.foldl (fun r group => r.removeLocked group.entry) r).groups.entries.length ≤
          r.groups.entries.length := by
      intro groups
      induction groups with
      | nil => exact fun r => Nat.le_refl _
      | cons group rest ih => exact fun r => (ih _).trans AList.length_erase_le
    exact (shorter _ r).trans bounded.few
  · intro key group known
    rw [lookup key] at known
    split at known
    · cases known
    · exact bounded.waiting key group known

end Reassembler

/-- The fragment of an `add` is one that `parseFragment` has accepted. -/
def ReassemblyCall.Parsed : ReassemblyCall → Prop
  | .add _ _ f _ => ∃ frame, parseFragment frame = .ok f
  | _ => True

namespace Reassembler

variable {r : Reassembler}

def after (calls : List ReassemblyCall) : Reassembler :=
  calls.foldl (fun r call => (r.perform call).2) {}

/-- What the answer of a call and the table after it say. -/
def Performs (r : Reassembler) : ReassemblyCall → Prop
  | .add now sessionID f owned =>
    ∀ packet, (r.add now sessionID f owned).1 = .ok (some packet) →
      packet.length = f.total ∧ packet.length ≤ maxDatagramSize
  | .expire now => ∀ key group, (r.expire now).groups.lookup key = some group →
      now - group.created ≤ reassemblyTTL
  | .discardSession .. => True

theorem age_le {now created : Int} (fresh : ¬Fec.Time.sub now created > reassemblyTTL) :
    now - created ≤ reassemblyTTL := by
  simp only [Fec.Time.sub, reassemblyTTL] at fresh ⊢
  omega

theorem Bounded.perform (bounded : r.Bounded) {call : ReassemblyCall} (parsed : call.Parsed) :
    (r.perform call).2.Bounded ∧ r.Performs call := by
  cases call with
  | add now sessionID f owned =>
    obtain ⟨frame, accepted⟩ := parsed
    have valid := parseFragment_valid accepted
    obtain ⟨added, packets⟩ := bounded.add now sessionID valid owned
    refine ⟨added, ?_⟩
    intro packet answer
    have length := packets packet answer
    exact ⟨length, length.trans_le valid.total⟩
  | expire now =>
    refine ⟨bounded.expireLocked now, ?_⟩
    intro key group known
    rw [Reassembler.expire, (bounded.sound.expireLocked now).2 key,
      Option.filter_eq_some_iff] at known
    exact age_le (of_decide_eq_true known.2)
  | discardSession visit all sessionID => exact ⟨bounded.discardSession all sessionID, trivial⟩

/-- Whatever fragments come, and in any order of calls and times: the table and the
heap hold the same groups, few of them, each waiting with room for the rest; packets
are as long as announced, and expiry leaves nothing old. -/
theorem reassembler_invariants (calls : List ReassemblyCall)
    (parsed : ∀ call ∈ calls, call.Parsed) :
    (after calls).Bounded ∧ ∀ call, call.Parsed → (after calls).Performs call := by
  have bounded : (after calls).Bounded := by
    induction calls using List.reverseRecOn with
    | nil => exact ⟨sound_empty, Nat.zero_le _, fun key group known => nomatch known⟩
    | append_singleton calls call ih =>
      have before := ih fun other listed => parsed other (mem_append_left _ listed)
      rw [after, foldl_concat]
      exact (before.perform (parsed call (by simp))).1
  exact ⟨bounded, fun call accepted => (bounded.perform accepted).2⟩

theorem parsed_half {now : Time} {sessionID : Nat} {index : Nat} {byte : UInt8} {owned : Bool}
    (first : index < 2) :
    (ReassemblyCall.add now sessionID (halfFragment index byte) owned).Parsed :=
  ⟨writeFragmentHeader 5 index 2 2 ++ [byte],
    parseFragment_frame (by decide) first (by decide) (by decide) (by decide)
      (Nat.one_pos : 0 < [byte].length) (show 1 ≤ maxFragmentData by decide)⟩

/-- One of two datagrams is complete, and the other one comes to its end. -/
theorem reassembler_invariants_first :
    let r := after [.add 10 1 (halfFragment 0 7) false, .add 11 2 (halfFragment 0 9) false,
      .add 12 1 (halfFragment 1 8) false]
    r.Bounded ∧ r.groups.entries.length = 1 ∧
      ∃ packet, (r.add 13 2 (halfFragment 1 6) false).1 = .ok (some packet) ∧
        packet.length ≤ maxDatagramSize := by
  have parsed : ∀ call ∈ [ReassemblyCall.add 10 1 (halfFragment 0 7) false,
      .add 11 2 (halfFragment 0 9) false, .add 12 1 (halfFragment 1 8) false], call.Parsed := by
    simp only [forall_mem_cons]
    exact ⟨parsed_half (by decide), parsed_half (by decide), parsed_half (by decide), nofun⟩
  obtain ⟨bounded, performs⟩ := reassembler_invariants _ parsed
  have complete : ((after [.add 10 1 (halfFragment 0 7) false, .add 11 2 (halfFragment 0 9) false,
      .add 12 1 (halfFragment 1 8) false]).add 13 2 (halfFragment 1 6) false).1 =
        .ok (some [9, 6]) := rfl
  exact ⟨bounded, by decide, _, complete,
    (performs (.add 13 2 (halfFragment 1 6) false) (parsed_half (by decide)) _ complete).2⟩

end Reassembler

end WgQuic.Bind
