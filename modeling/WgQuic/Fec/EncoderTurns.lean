import WgQuic.Fec.EncoderStream
import WgQuic.Lib.Ring

/-!
# Lanes that take turns

The lanes of an encoder take turns, so the groups that are open at one time
have neighbouring identifiers.  A receiver gives up a group when it sees one
that is `maxInterleave` younger, and relies on it that the older one has been
closed before.
-/

namespace WgQuic.Fec

open List

/-- The identifiers of the groups, in the order of their first records. -/
def openedIDs (sent : List Datagram) : List Nat :=
  sent.filterMap fun
    | .raw _ => none
    | .record p => if p.kind = .data ∧ p.index = 0 then some p.groupID else none

/-- Where every record stands among the records before it: groups that are
`maxInterleave` older are closed, and so are the groups of other epochs. -/
def Windowed (sent : List Datagram) : Prop :=
  ∀ before p after, sent = before ++ .record p :: after →
    (∀ id, id + maxInterleave ≤ p.groupID → ClosedIn before id) ∧
      ∀ q, .record q ∈ before → q.epoch ≠ p.epoch → ClosedIn before q.groupID

variable {id maxData opened : Nat} {sent out : List Datagram} {lane : EncoderGroup} {e : Encoder}

@[simp] theorem openedIDs_append (left right : List Datagram) :
    openedIDs (left ++ right) = openedIDs left ++ openedIDs right :=
  filterMap_append

theorem length_openedIDs (sent : List Datagram) : (openedIDs sent).length = groupsOpened sent := by
  induction sent with
  | nil => rfl
  | cons datagram sent ih =>
    have split : datagram :: sent = [datagram] ++ sent := rfl
    rw [split, openedIDs_append, groupsOpened_append, length_append, ih]
    cases datagram with
    | raw frame => rfl
    | record p =>
      by_cases first : p.kind = .data ∧ p.index = 0
      · simp [openedIDs, groupsOpened, opensGroup, first]
      · simp [openedIDs, groupsOpened, opensGroup, first]

theorem openedIDs_eq_nil (opened : groupsOpened sent = 0) : openedIDs sent = [] := by
  rw [← length_eq_zero_iff, length_openedIDs]
  exact opened

theorem Windowed.append (windowed : Windowed sent)
    (older : ∀ p, .record p ∈ out → ∀ id, id + maxInterleave ≤ p.groupID → ClosedIn sent id)
    (epochs : ∀ p, .record p ∈ out → ∀ q, .record q ∈ sent → q.epoch ≠ p.epoch → ClosedIn sent
      q.groupID) (same : ∀ p, .record p ∈ out → ∀ q, .record q ∈ out → q.epoch = p.epoch) :
    Windowed (sent ++ out) := by
  intro before p after split
  rcases append_eq_append_iff.mp split with
    ⟨fresh, rfl, rest⟩ | ⟨kept, rfl, rest⟩
  · -- the record is one of `out`
    have inOut : .record p ∈ out := rest ▸ by simp
    refine ⟨fun id old => (older p inOut id old).append_left fresh, ?_⟩
    intro q member different
    rcases mem_append.mp member with member | member
    · exact (epochs p inOut q member different).append_left fresh
    · have qOut : .record q ∈ out := rest ▸ by simp [member]
      exact (different (same p inOut q qOut)).elim
  · cases kept with
    | nil =>
      rw [append_nil] at older epochs
      have inOut : .record p ∈ out := by
        rw [nil_append] at rest
        exact rest ▸ mem_cons_self
      exact ⟨older p inOut, epochs p inOut⟩
    | cons datagram kept =>
      cases rest
      exact windowed before p kept rfl

/-- The lanes in the order of their turns.  Those that still wait for their
turn in this round hold `filled` frames, the others one more or, when that
made them full, none.  As long as nothing is filled, the open lanes are the
ones that have had their turn. -/
structure Turns (maxData opened : Nat) (lanes : List EncoderGroup)
    (filled : Nat) (waiting visited : List EncoderGroup) : Prop where
  parts : lanes = waiting ++ visited
  waits : waiting ≠ []
  room : filled < maxData
  even : ∀ lane ∈ waiting, lane.len = filled
  ahead : ∀ lane ∈ visited, lane.len = (filled + 1) % maxData
  recent : ∀ lane ∈ lanes, lane.len ≠ 0 → opened ≤ lane.groupID +
    if filled = 0 then visited.length else lanes.length

def Rotation (maxData opened : Nat) (lanes : List EncoderGroup) : Prop :=
  ∃ filled waiting visited, Turns maxData opened lanes filled waiting visited

variable {lanes : List EncoderGroup}

/-- A new round. -/
theorem Rotation.of_even {filled : Nat} (some : lanes ≠ [])
    (room : filled < maxData) (even : ∀ lane ∈ lanes, lane.len = filled)
    (recent : filled ≠ 0 → ∀ lane ∈ lanes, opened ≤ lane.groupID + lanes.length) :
    Rotation maxData opened lanes := by
  refine ⟨filled, lanes, [], (append_nil lanes).symm, some, room, even, by simp, ?_⟩
  intro lane member isOpen
  have nonzero : filled ≠ 0 := even lane member ▸ isOpen
  rw [if_neg nonzero]
  exact recent nonzero lane member

theorem Rotation.recent (rotation : Rotation maxData opened lanes)
    (member : lane ∈ lanes) (isOpen : lane.len ≠ 0) : opened ≤ lane.groupID + lanes.length := by
  obtain ⟨filled, waiting, visited, turns⟩ := rotation
  refine Nat.le_trans (turns.recent lane member isOpen) ?_
  rw [turns.parts, length_append]
  split <;> omega

variable {rest : List EncoderGroup}

/-- When the next lane is empty, one more group can be opened. -/
theorem Rotation.recent_of_empty
    (rotation : Rotation maxData opened (lane :: rest)) (empty : lane.len = 0)
    {other : EncoderGroup} (member : other ∈ rest) (isOpen : other.len ≠ 0) :
    opened + 1 ≤ other.groupID + (rest.length + 1) := by
  obtain ⟨filled, waiting, visited, turns⟩ := rotation
  have recent := turns.recent other (mem_cons_of_mem _ member) isOpen
  have lanes := turns.parts
  cases waiting with
  | nil => exact (turns.waits rfl).elim
  | cons first waiting =>
    rw [cons_append] at lanes
    obtain ⟨rfl, rfl⟩ := lanes
    have filledZero : filled = 0 := by
      rw [← turns.even lane (by simp), empty]
    rw [if_pos filledZero] at recent
    rw [length_append]
    omega

/-- The lane whose turn it is gets a frame and goes to the end. -/
theorem Rotation.turn {next : Nat} {new : EncoderGroup}
    (rotation : Rotation maxData opened (lane :: rest)) (len : new.len = (lane.len + 1) % maxData)
    (fresh : lane.len = 0 → next = opened + 1 ∧ (new.len ≠ 0 → new.groupID = opened))
    (same : lane.len ≠ 0 → next = opened ∧ (new.len ≠ 0 → new.groupID = lane.groupID)) :
    Rotation maxData next (rest ++ [new]) := by
  obtain ⟨filled, waiting, visited, turns⟩ := rotation
  have lanes := turns.parts
  cases waiting with
  | nil => exact (turns.waits rfl).elim
  | cons first waiting =>
    cases lanes
    have laneFilled : lane.len = filled := turns.even lane (by simp)
    rw [laneFilled] at len fresh same
    -- the bound for the open lanes after this turn
    have recent : ∀ other ∈ waiting ++ visited ++ [new], other.len ≠ 0 →
        next ≤ other.groupID + if filled = 0 then visited.length + 1
          else (waiting ++ visited).length + 1 := by
      intro other member isOpen
      rcases mem_append.mp member with member | member
      · have before := turns.recent other (mem_cons_of_mem _ member) isOpen
        by_cases zero : filled = 0
        · rw [if_pos zero] at before ⊢
          omega
        · rw [if_neg zero] at before
          rw [if_neg zero, (same zero).1]
          exact before
      · obtain rfl := mem_singleton.mp member
        by_cases zero : filled = 0
        · rw [if_pos zero]
          omega
        · obtain ⟨rfl, group⟩ := same zero
          have before := turns.recent lane mem_cons_self (laneFilled ▸ zero)
          rw [if_neg zero] at before
          rw [if_neg zero, group isOpen]
          exact before
    have visits : ∀ other ∈ visited ++ [new], other.len = (filled + 1) % maxData := by
      intro other member
      rcases mem_append.mp member with member | member
      · exact turns.ahead other member
      · exact mem_singleton.mp member ▸ len
    cases waiting with
    | nil =>
      refine .of_even (by simp) (Nat.mod_lt _ (by have := turns.room; omega)) visits ?_
      intro isOpen other member
      have bound := recent other member (visits other member ▸ isOpen)
      simpa using bound
    | cons second waiting =>
      refine ⟨filled, second :: waiting, visited ++ [new], by simp, by simp,
        turns.room, ?_, visits, ?_⟩
      · intro other member
        exact turns.even other (mem_cons_of_mem _ member)
      · intro other member isOpen
        have bound := recent other member isOpen
        simpa [Nat.add_assoc] using bound

structure Ordered (e : Encoder) (sent : List Datagram) : Prop where
  windowed : Windowed sent
  ids : openedIDs sent = List.range (groupsOpened sent)
  rotation : Rotation e.maxData (groupsOpened sent) (e.groups.rotate e.current)
  accounted : ∀ id < groupsOpened sent,
    (∃ lane ∈ e.groups, lane.len ≠ 0 ∧ lane.groupID = id) ∨ ClosedIn sent id
  epochs : ∀ p, .record p ∈ sent → p.epoch = e.epoch ∨ ClosedIn sent p.groupID
  laneEpochs : ∀ lane ∈ e.groups, lane.len ≠ 0 → lane.epoch = e.epoch
  few : e.groups.length ≤ maxInterleave
  nonzero : ∀ p, .record p ∈ sent → p.epoch ≠ 0

theorem Rotation.of_empty (some : lanes ≠ []) (positive : 0 < maxData)
    (empty : ∀ lane ∈ lanes, lane.len = 0) : Rotation maxData opened (lanes.rotate id) := by
  refine .of_even ?_ positive ?_ (fun nonzero => (nonzero rfl).elim)
  · rwa [ne_eq, rotate_eq_nil_iff]
  · intro lane member
    exact empty lane (mem_rotate.mp member)

/-- A group that is `maxInterleave` older than the youngest one is closed. -/
theorem Ordered.old_closed (ordered : Ordered e sent)
    (old : id + maxInterleave < groupsOpened sent) : ClosedIn sent id := by
  rcases ordered.accounted id (by omega) with ⟨lane, member, isOpen, rfl⟩ | closed
  · have recent := ordered.rotation.recent (mem_rotate.mpr member) isOpen
    have few := ordered.few
    rw [length_rotate] at recent
    omega
  · exact closed

end WgQuic.Fec
