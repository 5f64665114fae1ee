import WgQuic.Bind.Framing
import WgQuic.Lib.ExpiryTable

/-!
# Sessions do not see each other's fragments

All sessions share one table of incomplete datagrams and one expiry heap.  A
session that keeps only its own datagrams, and forgets each by its own clock,
gets the same answers.
-/

namespace WgQuic.Bind

open List Reassembler AList

open Fec (Bytes Time)

def Reassembly.fresh (now : Time) (group : Reassembly) : Bool :=
  ¬ Fec.Time.sub now group.created > reassemblyTTL

theorem Reassembly.fresh_mono {now later : Time} {group : Reassembly} (order : now ≤ later)
    (fresh : group.fresh later = true) : group.fresh now = true := by
  simp only [Reassembly.fresh, gt_iff_lt, not_lt, decide_eq_true_eq] at fresh ⊢
  exact (Fec.Time.sub_mono order (le_refl _)).trans fresh

namespace Reassembler

/-- The heap holds the groups of the table. -/
structure Sound (r : Reassembler) : Prop where
  heap : r.expiry.WellFormed ReassemblyEntry.created
  keyed : ∀ key group, r.groups.lookup key = some group → group.key = key
  tracked : ∀ entry, entry ∈ r.expiry.items ↔
    ∃ group, r.groups.lookup entry.key = some group ∧ group.entry = entry

variable {r : Reassembler} {entry : ReassemblyEntry} {now : Time}

theorem sound_iff : r.Sound ↔
    ExpiryTable ReassemblyEntry.created ReassemblyEntry.key Reassembly.entry r.groups r.expiry :=
  ⟨fun sound => ⟨sound.heap, sound.keyed, sound.tracked⟩,
    fun tracks => ⟨tracks.wellFormed, tracks.keyed, tracks.tracked⟩⟩

theorem sound_empty : Sound {} := sound_iff.mpr .empty

theorem Sound.remove (sound : r.Sound) (listed : entry ∈ r.expiry.items) :
    (r.removeLocked entry).Sound ∧
      (r.removeLocked entry).expiry.items.Perm (r.expiry.items.erase entry) := by
  obtain ⟨removed, same⟩ := (sound_iff.mp sound).remove listed
  exact ⟨sound_iff.mpr removed, same⟩

variable {group : Reassembly}

theorem Sound.group_tracked (sound : r.Sound) {key : ReassemblyKey}
    (known : r.groups.lookup key = some group) : group.entry ∈ r.expiry.items :=
  (sound_iff.mp sound).listed known

/-- Nothing is removed when every group of the table is fresh. -/
theorem Sound.filter_fresh (sound : r.Sound)
    (young : ∀ entry ∈ r.expiry.items, ¬ Fec.Time.sub now entry.created > reassemblyTTL)
    (key : ReassemblyKey) :
    r.groups.lookup key = (r.groups.lookup key).filter (Reassembly.fresh now) := by
  cases known : r.groups.lookup key with
  | none => rfl
  | some group =>
    have fresh : group.fresh now = true :=
      decide_eq_true (young group.entry (sound.group_tracked known))
    exact (Option.filter_eq_some_iff.mpr ⟨rfl, fresh⟩).symm

/-- The loop ends when nothing is left that has expired. -/
theorem Sound.expireLoop {fuel : Nat} (sound : r.Sound) (enough : r.expiry.size ≤ fuel) :
    (r.expireLoop now fuel).Sound ∧ ∀ key, (r.expireLoop now fuel).groups.lookup key =
        (r.groups.lookup key).filter (Reassembly.fresh now) := by
  induction fuel generalizing r with
  | zero =>
    refine ⟨sound, sound.filter_fresh fun entry listed => ?_⟩
    have empty : r.expiry.items = [] := length_eq_zero_iff.mp (Nat.le_zero.mp enough)
    rw [empty] at listed
    cases listed
  | succ fuel ih =>
    rw [expireLoop]
    split
    next empty =>
      refine ⟨sound, sound.filter_fresh fun entry listed => ?_⟩
      rw [empty] at listed
      cases listed
    next oldest rest items =>
      have first : r.expiry.items[0]? = some oldest := by
        rw [items]
        rfl
      have listed := mem_of_getElem? first
      split
      next expired =>
        obtain ⟨removed, same⟩ := sound.remove listed
        have shorter : (r.removeLocked oldest).expiry.size ≤ fuel := by
          change (r.removeLocked oldest).expiry.items.length ≤ fuel
          rw [same.length_eq, length_erase_of_mem listed]
          change r.expiry.items.length ≤ fuel + 1 at enough
          omega
        obtain ⟨final, lookup⟩ := ih removed shorter
        refine ⟨final, fun key => ?_⟩
        rw [lookup key]
        change ((r.groups.erase oldest.key).lookup key).filter _ = _
        by_cases isKey : key = oldest.key
        · subst isKey
          obtain ⟨group, known, isOldest⟩ := (sound.tracked oldest).mp listed
          have stale : group.fresh now = false := by
            rw [← isOldest] at expired
            exact decide_eq_false (not_not.mpr expired)
          rw [known]
          simp [Option.filter, stale]
        · rw [lookup_erase_ne isKey]
      next young =>
        refine ⟨sound, sound.filter_fresh fun entry member => ?_⟩
        have order := sound.heap.first_le first member
        exact fun expired => young (lt_of_lt_of_le expired (Fec.Time.sub_mono (le_refl _) order))

theorem Sound.expireLocked (sound : r.Sound) (now : Time) : (r.expireLocked now).Sound ∧
      ∀ key, (r.expireLocked now).groups.lookup key =
        (r.groups.lookup key).filter (Reassembly.fresh now) :=
  sound.expireLoop (Nat.le_refl _)

/-- What `finish` makes of a group, and the group it leaves. -/
def finishAlone (group : Reassembly) : Except String (Option Bytes) × Option Reassembly :=
  if group.seen ≠ group.count then (.ok none, some group)
  else if group.bytes ≠ group.total then
    (.error "reassembled datagram length mismatch", none)
  else (.ok (some (group.shards.flatMap (·.getD []))), none)

/-- What `addToGroup` makes of a group and a fragment. -/
def addAlone (group : Reassembly) (f : Fragment) :
    Except String (Option Bytes) × Option Reassembly :=
  if group.total ≠ f.total ∨ group.count ≠ f.count then
    (.error "inconsistent fragment metadata", none)
  else if group.shards.getD f.index none = none then
    if (group.bytes + f.data.length + group.count : Int) - group.seen - 1 >
        group.total then
      (.error "fragment payload exceeds total datagram size", none)
    else finishAlone (enter group f)
  else finishAlone group

/-- The table after a step on one of its groups. -/
structure Steps (r : Reassembler) (key : ReassemblyKey) (held : Option Reassembly)
    (after : Reassembler) : Prop where
  sound : after.Sound
  here : after.groups.lookup key = held
  elsewhere : ∀ other, other ≠ key → after.groups.lookup other = r.groups.lookup other

theorem Sound.drop (sound : r.Sound) (known : r.groups.lookup group.key = some group) :
    r.Steps group.key none (r.removeLocked group.entry) :=
  ⟨(sound.remove (sound.group_tracked known)).1, lookup_erase _ _,
    fun _ other => lookup_erase_ne other⟩

/-- A group may change, but not its key and its age. -/
theorem Sound.change (sound : r.Sound) {later : Reassembly}
    (known : r.groups.lookup group.key = some group) (same : later.entry = group.entry) :
    r.Steps group.key (some later)
      { r with groups := r.groups.insert later.key later } := by
  have sameKey : later.key = group.key := congrArg ReassemblyEntry.key same
  rw [sameKey]
  exact ⟨sound_iff.mpr ((sound_iff.mp sound).replace known same), lookup_insert _,
    fun _ other => lookup_insert_ne other⟩

theorem Sound.finish (sound : r.Sound) {group later : Reassembly}
    (known : r.groups.lookup group.key = some group) (same : later.entry = group.entry) :
    (r.finish later).1 = (finishAlone later).1 ∧
      r.Steps group.key (finishAlone later).2 (r.finish later).2 := by
  have dropped : r.Steps group.key none (r.removeLocked later.entry) := by
    rw [same]
    exact sound.drop known
  unfold Reassembler.finish finishAlone
  split
  · exact ⟨rfl, sound.change known same⟩
  · split
    · exact ⟨rfl, dropped⟩
    · exact ⟨rfl, dropped⟩

theorem Sound.addToGroup (sound : r.Sound) {f : Fragment}
    (known : r.groups.lookup group.key = some group) :
    (r.addToGroup group f).1 = (addAlone group f).1 ∧
      r.Steps group.key (addAlone group f).2 (r.addToGroup group f).2 := by
  unfold Reassembler.addToGroup addAlone
  split
  · exact ⟨rfl, sound.drop known⟩
  · split
    · split
      · exact ⟨rfl, sound.drop known⟩
      · exact sound.finish known rfl
    · exact sound.finish known rfl

/-- A datagram of which nothing is known yet. -/
def newGroup (now : Time) (key : ReassemblyKey) (f : Fragment) : Reassembly :=
  { created := now, key, total := f.total, count := f.count
    shards := List.replicate f.count none }

theorem Sound.insert (sound : r.Sound) (unknown : r.groups.lookup group.key = none) :
    r.Steps group.key (some group)
      { groups := r.groups.insert group.key group
        expiry := r.expiry.push ReassemblyEntry.less group.entry } :=
  ⟨sound_iff.mpr ((sound_iff.mp sound).insert unknown), lookup_insert _,
    fun _ other => lookup_insert_ne other⟩

theorem length_expireLoop (now : Time) (fuel : Nat) (r : Reassembler) :
    (r.expireLoop now fuel).groups.entries.length ≤ r.groups.entries.length := by
  induction fuel generalizing r with
  | zero => exact Nat.le_refl _
  | succ fuel ih =>
    rw [expireLoop]
    split
    · exact Nat.le_refl _
    next oldest rest items =>
      split
      · exact (ih _).trans (kerase_sublist _ _).length_le
      · exact Nat.le_refl _

/-- What `add` answers and leaves, for a datagram of several fragments. -/
theorem Sound.add_cases (sound : r.Sound) (now : Time) (sessionID : Nat) (f : Fragment)
    (owned : Bool) (several : f.count ≠ 1) : let key : ReassemblyKey := ⟨sessionID, f.packetID⟩
    let alone := addAlone (((r.groups.lookup key).filter (Reassembly.fresh now)).getD
      (newGroup now key f)) f
    ((r.expireLocked now).groups.entries.length ≥ maxReassemblies ∧ r.add now sessionID f owned =
        (.error "too many incomplete datagrams", r.expireLocked now)) ∨
    (((r.expireLocked now).groups.lookup key ≠ none ∨
        (r.expireLocked now).groups.entries.length < maxReassemblies) ∧
      (r.add now sessionID f owned).1 = alone.1 ∧
      (r.expireLocked now).Steps key alone.2 (r.add now sessionID f owned).2) := by
  intro key alone
  obtain ⟨expired, lookup⟩ := sound.expireLocked now
  unfold add
  rw [if_neg several]
  dsimp only
  cases known : (r.expireLocked now).groups.lookup key with
  | some group =>
    have isKey := expired.keyed key group known
    have held : alone = addAlone group f := by
      simp only [alone, ← lookup key, known, Option.getD_some]
    refine .inr ⟨.inl nofun, ?_⟩
    rw [held]
    rw [← isKey] at known ⊢
    exact expired.addToGroup known
  | none =>
    have held : alone = addAlone (newGroup now key f) f := by
      simp only [alone, ← lookup key, known, Option.getD_none]
    by_cases full : (r.expireLocked now).groups.entries.length ≥ maxReassemblies
    · exact .inl ⟨full, if_pos full⟩
    rw [held, if_neg full]
    have unknown : (r.expireLocked now).groups.lookup (newGroup now key f).key = none := known
    have inserted := expired.insert unknown
    obtain ⟨answer, steps⟩ := inserted.sound.addToGroup (f := f) inserted.here
    exact .inr ⟨.inr (Nat.not_le.mp full), answer, steps.sound, steps.here, fun other different =>
        (steps.elsewhere other different).trans (inserted.elsewhere other different)⟩

theorem Sound.add (sound : r.Sound) (now : Time) (sessionID : Nat) (f : Fragment)
    (owned : Bool) (several : f.count ≠ 1) (room : r.groups.entries.length < maxReassemblies) :
    let key : ReassemblyKey := ⟨sessionID, f.packetID⟩
    let alone := addAlone (((r.groups.lookup key).filter (Reassembly.fresh now)).getD
      (newGroup now key f)) f
    (r.add now sessionID f owned).1 = alone.1 ∧
      (r.expireLocked now).Steps key alone.2 (r.add now sessionID f owned).2 := by
  rcases sound.add_cases now sessionID f owned several with ⟨full, -⟩ | ⟨-, added⟩
  · exact absurd (full.trans (length_expireLoop now _ r)) (Nat.not_le.mpr room)
  · exact added

theorem Sound.discard (sound : r.Sound) (groups : List Reassembly)
    (known : ∀ group ∈ groups, r.groups.lookup group.key = some group)
    (distinct : (groups.map Reassembly.key).Nodup) :
    (groups.foldl (fun r group => r.removeLocked group.entry) r).Sound ∧
      ∀ key, (groups.foldl (fun r group => r.removeLocked group.entry) r).groups.lookup key =
        if key ∈ groups.map Reassembly.key then none else r.groups.lookup key := by
  induction groups generalizing r with
  | nil => exact ⟨sound, fun key => by simp⟩
  | cons group rest ih =>
    rw [map_cons, nodup_cons] at distinct
    have dropped := sound.drop (known group mem_cons_self)
    obtain ⟨final, lookup⟩ := ih dropped.sound (fun other listed => by
      rw [dropped.elsewhere other.key]
      · exact known other (mem_cons_of_mem _ listed)
      · intro same
        exact distinct.1 (same ▸ mem_map_of_mem listed)) distinct.2
    refine ⟨final, fun key => ?_⟩
    rw [foldl_cons, lookup key, map_cons]
    by_cases isKey : key = group.key
    · subst isKey
      rw [dropped.here]
      simp
    · rw [dropped.elsewhere key isKey]
      simp only [mem_cons, isKey, false_or]

theorem Sound.discardSession (sound : r.Sound) {visit : List Reassembly → List Reassembly}
    (all : ∀ groups, (visit groups).Perm groups) (sessionID : Nat) :
    (r.discardSession visit sessionID).Sound ∧
      ∀ key, (r.discardSession visit sessionID).groups.lookup key =
        if key.sessionID = sessionID then none else r.groups.lookup key := by
  let groups := (r.groups.entries.map Sigma.snd).filter fun group =>
    group.key.sessionID = sessionID
  have listed : ∀ group, group ∈ visit groups ↔
      r.groups.lookup group.key = some group ∧ group.key.sessionID = sessionID := by
    intro group
    rw [(all groups).mem_iff]
    simp only [groups, mem_filter, mem_map, decide_eq_true_eq]
    refine and_congr_left fun _ => ⟨?_, ?_⟩
    · rintro ⟨entry, member, rfl⟩
      have known := mem_lookup_iff.mpr member
      rw [sound.keyed entry.1 entry.2 known]
      exact known
    · intro known
      exact ⟨_, mem_lookup_iff.mp known, rfl⟩
  have keys : (r.groups.entries.map Sigma.snd).map Reassembly.key = r.groups.keys := by
    rw [map_map]
    refine map_congr_left fun entry member => ?_
    exact sound.keyed entry.1 entry.2 (mem_lookup_iff.mpr member)
  have distinct : ((visit groups).map Reassembly.key).Nodup := by
    refine ((all groups).map _).nodup_iff.mpr ?_
    have nodup := r.groups.keys_nodup
    rw [← keys] at nodup
    exact nodup.sublist (filter_sublist.map _)
  obtain ⟨final, lookup⟩ := sound.discard (visit groups)
    (fun group member => ((listed group).mp member).1) distinct
  refine ⟨final, fun key => (lookup key).trans ?_⟩
  by_cases own : key.sessionID = sessionID
  · split
    · rfl
    next absent =>
      cases known : r.groups.lookup key with
      | none => rfl
      | some group =>
        have isKey := sound.keyed key group known
        rw [← isKey] at known own absent
        exact (absent (mem_map_of_mem ((listed group).mpr ⟨known, own⟩))).elim
  · rw [if_neg own, if_neg]
    intro member
    obtain ⟨group, visited, rfl⟩ := mem_map.mp member
    exact own ((listed group).mp visited).2

end Reassembler

/-- A call, with the order in which `discardSession` visits the map. -/
inductive ReassemblyCall where
  | add (now : Time) (sessionID : Nat) (f : Fragment) (owned : Bool)
  | expire (now : Time)
  | discardSession (visit : List Reassembly → List Reassembly)
      (all : ∀ groups, (visit groups).Perm groups) (sessionID : Nat)

inductive SessionCall where
  | add (now : Time) (f : Fragment) (owned : Bool)
  | discard

namespace ReassemblyCall

/-- The call as one for the session, if it is. -/
def of (sessionID : Nat) : ReassemblyCall → Option SessionCall
  | .add now other f owned => if other = sessionID then some (.add now f owned) else none
  | .expire _ => none
  | .discardSession _ _ other => if other = sessionID then some .discard else none

def time : ReassemblyCall → Option Time
  | .add now _ _ _ | .expire now => some now
  | .discardSession _ _ _ => none

end ReassemblyCall

namespace Reassembler

/-- The answer of a call, if it has one, and the table it leaves. -/
def perform (r : Reassembler) : ReassemblyCall → Option (Except String (Option Bytes)) × Reassembler
  | .add now sessionID f owned =>
    let (answer, after) := r.add now sessionID f owned
    (some answer, after)
  | .expire now => (none, r.expire now)
  | .discardSession visit _ sessionID => (none, r.discardSession visit sessionID)

/-- The answers that the calls of a session get. -/
def answers (sessionID : Nat) : Reassembler → List ReassemblyCall →
    List (Option (Except String (Option Bytes)))
  | _, [] => []
  | r, call :: rest =>
    let (answer, after) := r.perform call
    if (call.of sessionID).isSome then answer :: answers sessionID after rest
    else answers sessionID after rest

/-- The table never holds the greatest number of incomplete datagrams. -/
def Roomy : Reassembler → List ReassemblyCall → Prop
  | r, [] => r.groups.entries.length < maxReassemblies
  | r, call :: rest =>
    r.groups.entries.length < maxReassemblies ∧ Roomy (r.perform call).2 rest

instance decidableRoomy : (r : Reassembler) → (calls : List ReassemblyCall) →
    Decidable (r.Roomy calls)
  | r, [] => inferInstanceAs (Decidable (r.groups.entries.length < maxReassemblies))
  | r, call :: rest =>
    have := decidableRoomy (r.perform call).2 rest
    inferInstanceAs (Decidable (_ ∧ _))

end Reassembler

/-! ## A session by itself -/

/-- The incomplete datagrams of a session that keeps them by itself. -/
abbrev Solo := Nat → Option Reassembly

namespace Solo

/-- A call in a table of one session. -/
def perform (sessionID : Nat) (held : Solo) :
    SessionCall → Option (Except String (Option Bytes)) × Solo
  | .add now f _ =>
    if f.count = 1 then
      if f.data.length ≠ f.total then
        (some (.error "single-fragment length mismatch"), held)
      else (some (.ok (some f.data)), held)
    else
      let group := ((held f.packetID).filter (Reassembly.fresh now)).getD
        (Reassembler.newGroup now ⟨sessionID, f.packetID⟩ f)
      let (answer, after) := Reassembler.addAlone group f
      (some answer, Function.update held f.packetID after)
  | .discard => (none, fun _ => none)

def answers (sessionID : Nat) : Solo → List SessionCall →
    List (Option (Except String (Option Bytes)))
  | _, [] => []
  | held, call :: rest =>
    let (answer, after) := held.perform sessionID call
    answer :: answers sessionID after rest

end Solo

/-- From now on, the table has the same fresh datagrams of the session. -/
structure Reassembler.Mirrors (sessionID : Nat) (now : Time) (r : Reassembler) (held : Solo) :
    Prop where
  sound : r.Sound
  same : ∀ later, now ≤ later → ∀ packetID,
    (r.groups.lookup ⟨sessionID, packetID⟩).filter (Reassembly.fresh later) =
      (held packetID).filter (Reassembly.fresh later)

namespace Reassembler

variable {sessionID : Nat} {now : Time} {r : Reassembler} {held : Solo}

theorem filter_fresh_fresh {later : Time} (order : now ≤ later) (group : Option Reassembly) :
    (group.filter (Reassembly.fresh now)).filter (Reassembly.fresh later) =
      group.filter (Reassembly.fresh later) := by
  cases group with
  | none => rfl
  | some group =>
    cases young : group.fresh later with
    | true => simp [Option.filter, young, Reassembly.fresh_mono order young]
    | false =>
      cases now_ : group.fresh now with
      | true | false => simp [Option.filter, young, now_]

section

variable (mirrors : r.Mirrors sessionID now held)

include mirrors

theorem Mirrors.mono {later : Time} (order : now ≤ later) : r.Mirrors sessionID later held :=
  ⟨mirrors.sound, fun after_ beyond => mirrors.same after_ (order.trans beyond)⟩

/-- The datagrams of the session are as they were, but for those that have expired
by now. -/
theorem Mirrors.expired {after : Reassembler}
    (sound : after.Sound) (kept : ∀ packetID, after.groups.lookup ⟨sessionID, packetID⟩ =
      (r.groups.lookup ⟨sessionID, packetID⟩).filter (Reassembly.fresh now)) :
    after.Mirrors sessionID now held := by
  refine ⟨sound, fun later order packetID => ?_⟩
  rw [kept packetID, filter_fresh_fresh order]
  exact mirrors.same later order packetID

variable {call : ReassemblyCall}

/-- Calls for others do not change what the session has. -/
theorem Mirrors.others
    (foreign : call.of sessionID = none) (timed : ∀ time, call.time = some time → time = now)
    (room : r.groups.entries.length < maxReassemblies) :
    (r.perform call).2.Mirrors sessionID now held := by
  have sound := mirrors.sound
  cases call with
  | add time other f owned =>
    cases timed time rfl
    have different : other ≠ sessionID := by
      rintro rfl
      simp [ReassemblyCall.of] at foreign
    change (r.add now other f owned).2.Mirrors sessionID now held
    by_cases single : f.count = 1
    · unfold add
      rw [if_pos single]
      split
      · exact mirrors
      · exact mirrors
    · have steps := (sound.add now other f owned single room).2
      refine mirrors.expired steps.sound fun packetID => ?_
      rw [steps.elsewhere _ fun same => different (congrArg ReassemblyKey.sessionID same).symm]
      exact (sound.expireLocked now).2 _
  | expire time =>
    cases timed time rfl
    obtain ⟨final, lookup⟩ := sound.expireLocked now
    exact mirrors.expired final fun packetID => lookup _
  | discardSession visit all other =>
    have different : other ≠ sessionID := by
      rintro rfl
      simp [ReassemblyCall.of] at foreign
    obtain ⟨final, lookup⟩ := sound.discardSession all other
    refine ⟨final, fun later order packetID => ?_⟩
    change ((r.discardSession visit other).groups.lookup ⟨sessionID, packetID⟩).filter _ = _
    rw [lookup, if_neg (Ne.symm different)]
    exact mirrors.same later order packetID

/-- A call of the session gets the answer it would get alone. -/
theorem Mirrors.own {alone : SessionCall}
    (isOwn : call.of sessionID = some alone) (timed : ∀ time, call.time = some time → time = now)
    (room : r.groups.entries.length < maxReassemblies) :
    (r.perform call).1 = (held.perform sessionID alone).1 ∧
      (r.perform call).2.Mirrors sessionID now (held.perform sessionID alone).2 := by
  have sound := mirrors.sound
  cases call with
  | add time other f owned =>
    cases timed time rfl
    simp only [ReassemblyCall.of] at isOwn
    split at isOwn
    next same =>
      subst same
      cases isOwn
      by_cases single : f.count = 1
      · by_cases mismatch : f.data.length ≠ f.total
        · simp only [perform, add, Solo.perform, if_pos single, if_pos mismatch]
          exact ⟨trivial, mirrors⟩
        · simp only [perform, add, Solo.perform, if_pos single, if_neg mismatch]
          exact ⟨trivial, mirrors⟩
      · obtain ⟨answer, steps⟩ := sound.add now other f owned single room
        rw [mirrors.same now (le_refl _)] at answer steps
        simp only [perform, Solo.perform, if_neg single]
        refine ⟨congrArg some answer, steps.sound, fun later order packetID => ?_⟩
        by_cases isPacket : packetID = f.packetID
        · subst isPacket
          rw [steps.here, Function.update_self]
        · rw [Function.update_of_ne isPacket, steps.elsewhere _ fun same =>
            isPacket (congrArg ReassemblyKey.packetID same),
            (sound.expireLocked now).2, filter_fresh_fresh order]
          exact mirrors.same later order packetID
    · cases isOwn
  | expire time => cases isOwn
  | discardSession visit all other =>
    simp only [ReassemblyCall.of] at isOwn
    split at isOwn
    next same =>
      subst same
      cases isOwn
      obtain ⟨final, lookup⟩ := sound.discardSession all other
      refine ⟨rfl, final, fun later order packetID => ?_⟩
      change ((r.discardSession visit other).groups.lookup ⟨other, packetID⟩).filter _ = _
      rw [lookup, if_pos rfl]
      rfl
    · cases isOwn

/-- A session gets the answers it would get alone. -/
theorem Mirrors.answers {calls : List ReassemblyCall}
    (ordered : (now :: calls.filterMap ReassemblyCall.time).Pairwise (· ≤ ·))
    (roomy : r.Roomy calls) :
    r.answers sessionID calls =
      held.answers sessionID (calls.filterMap (ReassemblyCall.of sessionID)) := by
  induction calls generalizing r held now with
  | nil => rfl
  | cons call rest ih =>
    obtain ⟨room, roomyRest⟩ := roomy
    -- the time of the call, or that of the call before it
    obtain ⟨time, order, timed, orderedRest⟩ : ∃ time, now ≤ time ∧
        (∀ other, call.time = some other → other = time) ∧
        (time :: rest.filterMap ReassemblyCall.time).Pairwise (· ≤ ·) := by
      cases read : call.time with
      | none =>
        rw [filterMap_cons_none read] at ordered
        exact ⟨now, le_refl _, nofun, ordered⟩
      | some time =>
        rw [filterMap_cons_some read, pairwise_cons] at ordered
        refine ⟨time, ordered.1 time mem_cons_self, ?_, ordered.2⟩
        rintro _ ⟨⟩
        rfl
    have mirrors := mirrors.mono order
    cases kind : call.of sessionID with
    | none =>
      rw [filterMap_cons_none kind]
      simp only [answers, kind, Option.isSome_none, Bool.false_eq_true, if_false]
      exact ih (mirrors.others kind timed room) orderedRest roomyRest
    | some alone =>
      obtain ⟨answer, after⟩ := mirrors.own kind timed room
      rw [filterMap_cons_some kind]
      simp only [answers, kind, Option.isSome_some, if_true, Solo.answers]
      rw [answer, ih after orderedRest roomyRest]

end

theorem mirrors_empty (sessionID : Nat) (now : Time) : Mirrors sessionID now {} fun _ => none where
  sound := sound_empty
  same _ _ _ := by rw [lookup_empty]

/-- What others send, and when their datagrams are dropped, does not show in the
answers that a session gets. -/
theorem sessions_isolated (sessionID : Nat) (first second : List ReassemblyCall)
    (firstOrdered : (first.filterMap ReassemblyCall.time).Pairwise (· ≤ ·))
    (secondOrdered : (second.filterMap ReassemblyCall.time).Pairwise (· ≤ ·))
    (firstRoomy : Roomy {} first) (secondRoomy : Roomy {} second)
    (same : first.filterMap (ReassemblyCall.of sessionID) =
      second.filterMap (ReassemblyCall.of sessionID)) :
    answers sessionID {} first = answers sessionID {} second := by
  have alone : ∀ calls : List ReassemblyCall,
      (calls.filterMap ReassemblyCall.time).Pairwise (· ≤ ·) → Roomy {} calls →
      answers sessionID {} calls = Solo.answers sessionID (fun _ => none)
        (calls.filterMap (ReassemblyCall.of sessionID)) := by
    intro calls ordered roomy
    obtain ⟨start, begins⟩ : ∃ start,
        (start :: calls.filterMap ReassemblyCall.time).Pairwise (· ≤ ·) := by
      cases times : calls.filterMap ReassemblyCall.time with
      | nil => exact ⟨0, pairwise_singleton _ _⟩
      | cons time rest =>
        rw [times] at ordered
        refine ⟨time, pairwise_cons.mpr ⟨fun later listed => ?_, ordered⟩⟩
        rcases mem_cons.mp listed with rfl | listed
        · exact le_refl _
        · exact (pairwise_cons.mp ordered).1 later listed
    exact (mirrors_empty sessionID start).answers begins roomy
  rw [alone first firstOrdered firstRoomy, alone second secondOrdered secondRoomy, same]

/-- A fragment of a datagram of two bytes. -/
def halfFragment (index : Nat) (byte : UInt8) : Fragment :=
  { packetID := 5, index, count := 2, total := 2, data := [byte] }

/-- Between the two fragments of one session, another one starts a datagram of the
same identifier and goes away. -/
theorem sessions_isolated_between_fragments : answers 1 {}
        [.add 10 1 (halfFragment 0 7) false, .add 11 2 (halfFragment 0 9) false,
          .expire 12, .discardSession id (fun _ => .refl _) 2, .add 13 1 (halfFragment 1 8) false] =
      answers 1 {} [.add 10 1 (halfFragment 0 7) false, .add 13 1 (halfFragment 1 8) false] :=
  sessions_isolated 1 _ _ (by decide) (by decide) (by decide) (by decide) rfl

end Reassembler

end WgQuic.Bind
