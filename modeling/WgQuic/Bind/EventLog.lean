import WgQuic.Lib.Ring

/-!
# The event log of the sessions

A ring of numbered events, read in pages by a cursor.
-/

namespace WgQuic.Bind

open List

def maxSessionEvents : Nat := 4096
def maxSessionEventQuery : Nat := 1024

structure SessionEvent (Event : Type) where
  eventSequence : Nat
  event : Event

structure SessionEventLog (Event : Type) where
  streamID : String
  sequence : Nat := 0
  dropped : Nat := 0
  entries : List (SessionEvent Event) := []
  first : Nat := 0

structure SessionEventBatch (Event : Type) where
  eventStreamID : String
  firstAvailableSequence : Nat := 0
  lastSequence : Nat
  eventsDroppedTotal : Nat
  events : List (SessionEvent Event) := []

variable {Event : Type}

namespace SessionEventLog

def append (h : SessionEventLog Event) (event : Event) : SessionEventLog Event :=
  let sequence := (h.sequence + 1) % 2 ^ 64
  let event : SessionEvent Event := { eventSequence := sequence, event }
  if h.entries.length < maxSessionEvents then
    { h with sequence, entries := h.entries ++ [event] }
  else
    { h with
      sequence
      entries := h.entries.set h.first event
      first := (h.first + 1) % h.entries.length
      dropped := (h.dropped + 1) % 2 ^ 64 }

/-- The closure `at` of `page`. -/
def entryAt (h : SessionEventLog Event) (i : Nat) : Option (SessionEvent Event) :=
  h.entries[(h.first + i) % h.entries.length]?

def sequenceAt (h : SessionEventLog Event) (i : Nat) : Nat :=
  ((h.entryAt i).map SessionEvent.eventSequence).getD 0

def pageLimit (limit : Int) : Nat :=
  (min (if limit ≤ 0 then 256 else limit) maxSessionEventQuery).toNat

def page (h : SessionEventLog Event) (streamID : String) (after : Nat) (limit : Int) :
    Except String (SessionEventBatch Event) :=
  if streamID ≠ "" ∧ streamID ≠ h.streamID then
    .error ("event stream changed from " ++ streamID ++ " to " ++ h.streamID)
  else
    let batch : SessionEventBatch Event :=
      { eventStreamID := h.streamID, eventsDroppedTotal := h.dropped
        lastSequence := min after h.sequence }
    if h.entries.length = 0 then .ok batch
    else
      let batch := { batch with firstAvailableSequence := h.sequenceAt 0 }
      let first := Ring.search h.entries.length fun i => h.sequenceAt i > after
      let last := min h.entries.length (first + pageLimit limit)
      if last > first then
        let events := (List.range (last - first)).filterMap fun i => h.entryAt (first + i)
        .ok { batch with
          events
          lastSequence := ((events.getLast?).map SessionEvent.eventSequence).getD 0 }
      else .ok batch

end SessionEventLog

/-! ## What the ring holds -/

/-- The events with their sequence numbers, which start at one. -/
def number (appended : List Event) : List (SessionEvent Event) :=
  appended.mapIdx fun i event => { eventSequence := i + 1, event }

@[simp]
theorem length_number (appended : List Event) : (number appended).length = appended.length :=
  length_mapIdx

theorem number_concat (appended : List Event) (event : Event) : number (appended ++ [event]) =
      number appended ++ [{ eventSequence := appended.length + 1, event }] :=
  mapIdx_concat

variable {e : SessionEvent Event} {appended : List Event}

theorem getElem?_number {i : Nat} :
    (number appended)[i]? = some e ↔ e.eventSequence = i + 1 ∧ appended[i]? = some e.event := by
  rw [number, getElem?_mapIdx, Option.map_eq_some_iff]
  constructor
  · rintro ⟨event, found, rfl⟩
    exact ⟨rfl, found⟩
  · rintro ⟨sequence, found⟩
    exact ⟨e.event, found, by rw [← sequence]⟩

theorem mem_window {start count : Nat} : e ∈ ((number appended).drop start).take count ↔
      start < e.eventSequence ∧ e.eventSequence ≤ start + count ∧
        appended[e.eventSequence - 1]? = some e.event := by
  rw [mem_iff_getElem?]
  constructor
  · rintro ⟨i, found⟩
    rw [getElem?_take, Option.ite_none_right_eq_some, getElem?_drop, getElem?_number] at found
    obtain ⟨bound, sequence, found⟩ := found
    refine ⟨by omega, by omega, ?_⟩
    rw [sequence]
    exact found
  · rintro ⟨least, most, found⟩
    refine ⟨e.eventSequence - 1 - start, ?_⟩
    have place : start + (e.eventSequence - 1 - start) = e.eventSequence - 1 := by omega
    rw [getElem?_take, Option.ite_none_right_eq_some, getElem?_drop, place, getElem?_number]
    exact ⟨by omega, by omega, found⟩

theorem filterMap_range_getElem? {α : Type} (items : List α) (start count : Nat) :
    (List.range count).filterMap (fun i => items[start + i]?) = (items.drop start).take count := by
  induction count with
  | zero => rfl
  | succ count ih =>
    rw [range_succ, filterMap_append, ih, take_add_one, getElem?_drop]
    rfl

theorem number_increasing (appended : List Event) :
    (number appended).Pairwise fun left right => left.eventSequence < right.eventSequence := by
  rw [pairwise_iff_getElem]
  intro i j _ _ less
  simpa [number] using less

namespace SessionEventLog

/-- How full the ring is after a number of events. -/
structure Filled (h : SessionEventLog Event) (count : Nat) : Prop where
  length : h.entries.length = min count maxSessionEvents
  dropped : h.dropped = (count - maxSessionEvents) % 2 ^ 64

theorem Filled.append {h : SessionEventLog Event} {count : Nat} (filled : h.Filled count)
    (event : Event) : (h.append event).Filled (count + 1) := by
  obtain ⟨length, dropped⟩ := filled
  unfold SessionEventLog.append
  split
  · refine ⟨?_, ?_⟩
    · rw [length_append, length_singleton]
      omega
    · have none : count - maxSessionEvents = count + 1 - maxSessionEvents := by omega
      rw [dropped, none]
  · refine ⟨?_, ?_⟩
    · rw [length_set]
      omega
    · have more : count - maxSessionEvents + 1 = count + 1 - maxSessionEvents := by omega
      rw [dropped, Nat.mod_add_mod, more]

/-- The ring holds the last events, from the oldest one on. -/
structure Retains (h : SessionEventLog Event) (appended : List Event) : Prop where
  filled : h.Filled appended.length
  sequence : h.sequence = appended.length
  dropped : h.dropped + h.entries.length = appended.length
  first : h.first < maxSessionEvents
  unturned : h.entries.length < maxSessionEvents → h.first = 0
  stored : h.entries.rotate h.first = (number appended).drop h.dropped

variable {h : SessionEventLog Event} {appended : List Event}

section

variable (retains : h.Retains appended)

include retains

theorem Retains.append (event : Event)
    (few : appended.length + 1 < 2 ^ 64) : (h.append event).Retains (appended ++ [event]) := by
  have filled : (h.append event).Filled (appended ++ [event]).length := by
    rw [length_append]
    exact retains.filled.append event
  have length := retains.filled.length
  have sequence : (h.sequence + 1) % 2 ^ 64 = appended.length + 1 := by
    rw [retains.sequence, Nat.mod_eq_of_lt few]
  have dropped := retains.dropped
  unfold SessionEventLog.append at filled ⊢
  rw [sequence] at filled ⊢
  split
  · next room =>
    rw [if_pos room] at filled
    have all : h.dropped = 0 := by omega
    refine ⟨filled, by simp, ?_, retains.first, fun _ => retains.unturned room, ?_⟩
    · rw [length_append, length_append, ← dropped]
      rfl
    · have stored := retains.stored
      rw [retains.unturned room, rotate_zero, all, drop_zero] at stored ⊢
      rw [stored, number_concat]
  next full =>
  rw [if_neg full] at filled
  have isFull : h.entries.length = maxSessionEvents := by omega
  have counted : (h.dropped + 1) % 2 ^ 64 = h.dropped + 1 := by
    exact Nat.mod_eq_of_lt (by omega)
  obtain ⟨rest, oldest, turned⟩ := Ring.rotate_set
    (getElem?_eq_getElem (retains.first.trans_eq isFull.symm))
    { eventSequence := appended.length + 1, event }
  rw [counted] at filled ⊢
  refine ⟨filled, by simp, ?_, ?_, ?_, ?_⟩
  · rw [length_set, length_append, length_singleton]
    dsimp only
    omega
  · rw [isFull]
    exact Nat.mod_lt _ (by decide)
  · intro room
    rw [length_set, isFull] at room
    exact absurd room (Nat.lt_irrefl _)
  · have stored := retains.stored
    rw [oldest] at stored
    have inside : h.dropped < (number appended).length := by
      rw [length_number]
      have positive : 0 < maxSessionEvents := by decide
      omega
    rw [turned, number_concat, drop_append_of_le_length inside]
    rw [drop_eq_getElem_cons inside] at stored
    rw [(List.cons.inj stored).2]

theorem Retains.entryAt {i : Nat} (bound : i < h.entries.length) :
    h.entryAt i = (number appended)[h.dropped + i]? := by
  rw [← getElem?_drop, ← retains.stored, getElem?_rotate bound, SessionEventLog.entryAt,
    Nat.add_comm]

theorem Retains.sequenceAt {i : Nat}
    (bound : i < h.entries.length) : h.sequenceAt i = h.dropped + i + 1 := by
  have inside : h.dropped + i < (number appended).length := by
    rw [length_number, ← retains.dropped]
    exact Nat.add_lt_add_left bound _
  rw [SessionEventLog.sequenceAt, retains.entryAt bound, getElem?_eq_getElem inside]
  exact (getElem?_number.mp (getElem?_eq_getElem inside)).1

theorem Retains.window {first count : Nat} (bound : first + count ≤ h.entries.length) :
    (List.range count).filterMap (fun i => h.entryAt (first + i)) =
      ((number appended).drop (h.dropped + first)).take count := by
  rw [← filterMap_range_getElem?]
  refine filterMap_congr fun i listed => ?_
  have below := mem_range.mp listed
  rw [retains.entryAt (by omega), Nat.add_assoc]

end

theorem getLast?_window {start count : Nat} (positive : 0 < count)
    (inside : start + count ≤ appended.length) :
    (((number appended).drop start).take count).getLast?.map SessionEvent.eventSequence =
      some (start + count) := by
  have length : (((number appended).drop start).take count).length = count := by
    rw [length_take, length_drop, length_number]
    omega
  have last : start + (count - 1) < (number appended).length := by
    rw [length_number]
    omega
  rw [getLast?_eq_getElem?, length, getElem?_take, if_pos (by omega),
    getElem?_drop, getElem?_eq_getElem last]
  have sequence := (getElem?_number.mp (getElem?_eq_getElem last)).1
  exact congrArg some (sequence.trans (by omega))

theorem Retains.dropped_lt (retains : h.Retains appended)
    (listed : e ∈ h.entries) : h.dropped < e.eventSequence := by
  have member : e ∈ (number appended).drop h.dropped := by
    rw [← retains.stored]
    exact mem_rotate.mpr listed
  rw [← take_length (l := (number appended).drop h.dropped), mem_window] at member
  exact member.1

theorem pageLimit_pos (limit : Int) : 0 < pageLimit limit := by
  unfold pageLimit maxSessionEventQuery
  split <;> omega

theorem page_dropped {streamID : String} {after : Nat} {limit : Int}
    {batch : SessionEventBatch Event} (read : h.page streamID after limit = .ok batch) :
    batch.eventsDroppedTotal = h.dropped := by
  unfold SessionEventLog.page at read
  split at read
  · cases read
  dsimp only at read
  split at read
  · cases read
    rfl
  split at read
  · cases read
    rfl
  · cases read
    rfl

/-- The last event that a page reaches. -/
def reach (h : SessionEventLog Event) (appended : List Event) (after : Nat) (limit : Int) : Nat :=
  min appended.length (max h.dropped after + pageLimit limit)

theorem Retains.page (retains : h.Retains appended) {streamID : String}
    (accepted : streamID = "" ∨ streamID = h.streamID) {after : Nat}
    (behind : after ≤ appended.length) (limit : Int) :
    h.page streamID after limit = .ok
      { eventStreamID := h.streamID
        firstAvailableSequence := if appended = [] then 0 else h.dropped + 1
        lastSequence := h.reach appended after limit
        eventsDroppedTotal := h.dropped
        events := ((number appended).drop (max h.dropped after)).take
          (h.reach appended after limit - max h.dropped after) } := by
  have length := retains.dropped
  have positive := pageLimit_pos limit
  have sameStream : ¬(streamID ≠ "" ∧ streamID ≠ h.streamID) := by tauto
  unfold SessionEventLog.page
  rw [if_neg sameStream, retains.sequence]
  dsimp only
  split
  · next empty =>
    have none : appended = [] := eq_nil_of_length_eq_zero (by
      have size := retains.filled.length
      have some : 0 < maxSessionEvents := by decide
      omega)
    subst none
    simp [number, reach]
  next some =>
  have nonempty : appended ≠ [] := by
    rintro rfl
    simp at length
    exact some (by simp [length])
  have found : Ring.search h.entries.length (fun i => h.sequenceAt i > after) =
      after - h.dropped := by
    apply Ring.search_eq
    · omega
    · intro i earlier
      rw [retains.sequenceAt (by omega)]
      exact decide_eq_false (by omega)
    · intro i later bound
      rw [retains.sequenceAt bound]
      exact decide_eq_true (by omega)
  rw [found, retains.sequenceAt (Nat.pos_of_ne_zero some)]
  have start : h.dropped + (after - h.dropped) = max h.dropped after := by omega
  have count : min h.entries.length (after - h.dropped + pageLimit limit) - (after - h.dropped) =
      h.reach appended after limit - max h.dropped after := by
    rw [reach]
    omega
  have reached : h.reach appended after limit =
      min appended.length (max h.dropped after + pageLimit limit) := rfl
  split
  · next more =>
    have last : max h.dropped after + (h.reach appended after limit - max h.dropped after) =
        h.reach appended after limit := by omega
    rw [retains.window (by omega), count, start, getLast?_window (by omega) (by omega), last]
    rfl
  · next none =>
    have nothing : h.reach appended after limit - max h.dropped after = 0 := by omega
    have last : min after appended.length = h.reach appended after limit := by omega
    rw [nothing, take_zero, last]

end SessionEventLog

/-! ## A reader -/

/-- A page, with the log and the cursor that it was read with. -/
structure EventPage (Event : Type) where
  log : SessionEventLog Event
  after : Nat
  batch : SessionEventBatch Event

/-- The event had been appended and overwritten before the page was read. -/
structure EventPage.Skips (page : EventPage Event) (sequence : Nat) : Prop where
  beyond : page.after < sequence
  appended : sequence ≤ page.log.sequence
  overwritten : ∀ e ∈ page.log.entries, e.eventSequence ≠ sequence
  told : sequence < page.batch.firstAvailableSequence

/-- A log, all that was appended to it, and a reader that passes on its cursor. -/
structure EventReading (Event : Type) where
  log : SessionEventLog Event
  appended : List Event := []
  cursor : Nat := 0
  pages : List (EventPage Event) := []

inductive EventCall (Event : Type) where
  | append (event : Event)
  | page (streamID : String) (limit : Int)

namespace EventReading

def step (s : EventReading Event) : EventCall Event → EventReading Event
  | .append event => { s with log := s.log.append event, appended := s.appended ++ [event] }
  | .page streamID limit =>
    match s.log.page streamID s.cursor limit with
    | .error _ => s
    | .ok batch =>
      { s with
        cursor := batch.lastSequence
        pages := s.pages ++ [{ log := s.log, after := s.cursor, batch }] }

def run (streamID : String) (calls : List (EventCall Event)) : EventReading Event :=
  calls.foldl step { log := { streamID } }

def returned (s : EventReading Event) : List (SessionEvent Event) :=
  s.pages.flatMap fun page => page.batch.events

structure Reads (s : EventReading Event) : Prop where
  retains : s.log.Retains s.appended
  cursor : s.cursor ≤ s.appended.length
  events : ∀ e ∈ s.returned,
    e.eventSequence ≤ s.cursor ∧ s.appended[e.eventSequence - 1]? = some e.event
  increasing : s.returned.Pairwise fun left right => left.eventSequence < right.eventSequence
  covered : ∀ sequence, 0 < sequence → sequence ≤ s.cursor →
    (∃ e ∈ s.returned, e.eventSequence = sequence) ∨ ∃ page ∈ s.pages, page.Skips sequence
  newest : 0 < s.cursor → ∃ e ∈ s.returned, e.eventSequence = s.cursor

variable {s : EventReading Event} {streamID : String}

theorem Reads.append (reads : s.Reads) (event : Event) (few : s.appended.length + 1 < 2 ^ 64) :
    (s.step (.append event)).Reads where
  retains := reads.retains.append event few
  cursor := reads.cursor.trans (by simp [step])
  events e listed := by
    obtain ⟨read, found⟩ := reads.events e listed
    refine ⟨read, ?_⟩
    rw [step, List.getElem?_append_left (List.getElem?_eq_some_iff.mp found).1]
    exact found
  increasing := reads.increasing
  covered := reads.covered
  newest := reads.newest

theorem Reads.page (reads : s.Reads) (streamID : String) (limit : Int) :
    (s.step (.page streamID limit)).Reads := by
  by_cases accepted : streamID = "" ∨ streamID = s.log.streamID
  case neg =>
    have foreign : streamID ≠ "" ∧ streamID ≠ s.log.streamID := not_or.mp accepted
    rw [step, SessionEventLog.page, if_pos foreign]
    exact reads
  have retains := reads.retains
  have least := reads.cursor
  have length := retains.dropped
  have positive := SessionEventLog.pageLimit_pos limit
  have reached : s.log.reach s.appended s.cursor limit = min s.appended.length
    (max s.log.dropped s.cursor + SessionEventLog.pageLimit limit) := rfl
  rw [step, retains.page accepted reads.cursor]
  generalize s.log.reach s.appended s.cursor limit = reach at reached
  have window : ∀ {e : SessionEvent Event},
      e ∈ ((number s.appended).drop (max s.log.dropped s.cursor)).take
          (reach - max s.log.dropped s.cursor) ↔
        max s.log.dropped s.cursor < e.eventSequence ∧ e.eventSequence ≤ reach ∧
          s.appended[e.eventSequence - 1]? = some e.event := by
    intro e
    rw [mem_window]
    refine and_congr_right fun later => and_congr_left fun _ => ?_
    omega
  -- the event of a sequence number that the page reaches
  have found : ∀ sequence, max s.log.dropped s.cursor < sequence → sequence ≤ reach →
      ∃ e ∈ ((number s.appended).drop (max s.log.dropped s.cursor)).take
        (reach - max s.log.dropped s.cursor), e.eventSequence = sequence := by
    intro sequence later inside
    have bound : sequence - 1 < s.appended.length := by omega
    exact ⟨⟨sequence, s.appended[sequence - 1]⟩,
      window.mpr ⟨later, inside, getElem?_eq_getElem bound⟩, rfl⟩
  refine ⟨retains, (show reach ≤ s.appended.length by omega), ?_, ?_, ?_, ?_⟩
  all_goals simp only [returned, flatMap_append, flatMap_singleton, mem_append]
  · rintro e (earlier | fresh)
    · obtain ⟨read, known⟩ := reads.events e earlier
      exact ⟨by omega, known⟩
    · exact (window.mp fresh).2
  · refine pairwise_append.mpr ⟨reads.increasing, ?_, ?_⟩
    · exact (number_increasing s.appended).sublist ((take_sublist _ _).trans (drop_sublist _ _))
    · intro left earlier right fresh
      have before := (reads.events left earlier).1
      have after := (window.mp fresh).1
      omega
  · intro sequence some inside
    by_cases known : sequence ≤ s.cursor
    · rcases reads.covered sequence some known with ⟨e, listed, isIt⟩ | ⟨page, listed, skips⟩
      · exact .inl ⟨e, .inl listed, isIt⟩
      · exact .inr ⟨page, .inl listed, skips⟩
    by_cases stored : max s.log.dropped s.cursor < sequence
    · obtain ⟨e, listed, isIt⟩ := found sequence stored inside
      exact .inl ⟨e, .inr listed, isIt⟩
    · refine .inr ⟨_, .inr (mem_singleton_self _), Nat.not_le.mp known, ?_, ?_, ?_⟩
      · rw [retains.sequence]
        omega
      · intro e listed isIt
        have later := retains.dropped_lt listed
        omega
      · have nonempty : s.appended ≠ [] := by
          intro empty
          rw [empty, length_nil] at reached least
          omega
        dsimp only
        rw [if_neg nonempty]
        omega
  · intro some
    by_cases done : s.cursor = s.appended.length
    · obtain ⟨e, listed, isIt⟩ := reads.newest (by omega)
      exact ⟨e, .inl listed, by omega⟩
    · have unfinished : s.log.dropped < s.appended.length := by
        have size := retains.filled.length
        have capacity : 0 < maxSessionEvents := by decide
        omega
      obtain ⟨e, listed, isIt⟩ := found reach (by omega) (Nat.le_refl _)
      exact ⟨e, .inr listed, isIt⟩

theorem run_concat (streamID : String) (calls : List (EventCall Event)) (call : EventCall Event) :
    run streamID (calls ++ [call]) = (run streamID calls).step call :=
  foldl_concat ..

theorem step_streamID (s : EventReading Event) (call : EventCall Event) :
    (s.step call).log.streamID = s.log.streamID := by
  cases call with
  | append event =>
    rw [step, SessionEventLog.append]
    split <;> rfl
  | page streamID limit =>
    rw [step]
    split <;> rfl

theorem filled_new (streamID : String) : ({ streamID } : SessionEventLog Event).Filled 0 :=
  ⟨rfl, (Nat.zero_mod _).symm⟩

theorem length_step_le (s : EventReading Event) (call : EventCall Event) :
    s.appended.length ≤ (s.step call).appended.length := by
  cases call with
  | append event => simp [step]
  | page streamID limit =>
    rw [step]
    split <;> exact Nat.le_refl _

theorem run_reads (streamID : String) (calls : List (EventCall Event))
    (few : (run streamID calls).appended.length < 2 ^ 64) :
    (run streamID calls).Reads ∧ (run streamID calls).log.streamID = streamID := by
  induction calls using List.reverseRecOn with
  | nil =>
    have capacity : 0 < maxSessionEvents := by decide
    refine ⟨⟨⟨filled_new streamID, rfl, rfl, capacity, fun _ => rfl, rfl⟩, Nat.le_refl _, nofun,
      .nil, ?_, nofun⟩, rfl⟩
    intro sequence some inside
    exact absurd inside (Nat.not_le.mpr some)
  | append_singleton calls call ih =>
    rw [run_concat] at few ⊢
    obtain ⟨reads, same⟩ := ih ((length_step_le _ call).trans_lt few)
    refine ⟨?_, (step_streamID _ call).trans same⟩
    cases call with
    | append event => exact reads.append event (by simpa [step] using few)
    | page streamID limit => exact reads.page streamID limit

/-- Paging without appends gets to the end. -/
theorem Reads.drained (reads : s.Reads) {pages : List (String × Int)}
    (accepted : ∀ page ∈ pages, page.1 = "" ∨ page.1 = s.log.streamID)
    (enough : s.appended.length ≤ s.cursor + pages.length) :
    let last := pages.foldl (fun s page => s.step (.page page.1 page.2)) s
    last.Reads ∧ last.cursor = s.appended.length := by
  induction pages generalizing s with
  | nil => exact ⟨reads, Nat.le_antisymm reads.cursor enough⟩
  | cons page rest ih =>
    have first := accepted page mem_cons_self
    have moved : (s.step (.page page.1 page.2)).cursor =
        s.log.reach s.appended s.cursor page.2 := by
      rw [step, reads.retains.page first reads.cursor]
    have same : (s.step (.page page.1 page.2)).appended = s.appended := by
      rw [step]
      split <;> rfl
    have positive := SessionEventLog.pageLimit_pos page.2
    obtain ⟨final, cursor⟩ := ih (reads.page page.1 page.2) (fun other listed => by
        rw [step_streamID]
        exact accepted other (mem_cons_of_mem _ listed))
      (by
        rw [same, moved, SessionEventLog.reach]
        simp only [length_cons] at enough
        omega)
    exact ⟨final, cursor.trans (by rw [same])⟩

/-- Fewer than `2 ^ 64` events: the pages of a reader are increasing, what it does not
get was overwritten and is announced, it gets to the newest event, and the dropped
events are those that are gone. -/
theorem event_log_cursor (streamID : String) (calls : List (EventCall Event))
    (few : (run streamID calls).appended.length < 2 ^ 64) :
    let s := run streamID calls
    s.returned.Pairwise (fun left right => left.eventSequence < right.eventSequence) ∧
      (∀ e ∈ s.returned, s.appended[e.eventSequence - 1]? = some e.event) ∧
      (∀ sequence, 0 < sequence → sequence ≤ s.cursor →
        (∃ e ∈ s.returned, e.eventSequence = sequence) ∨ ∃ page ∈ s.pages, page.Skips sequence) ∧
      (∀ pages : List (String × Int), (∀ page ∈ pages, page.1 = "" ∨ page.1 = streamID) →
        s.appended.length ≤ s.cursor + pages.length → 0 < s.appended.length →
        ∃ e ∈ (pages.foldl (fun s page => s.step (.page page.1 page.2)) s).returned,
          e.eventSequence = s.appended.length) ∧
      ∀ id limit batch, s.log.page id s.cursor limit = .ok batch →
        batch.eventsDroppedTotal + s.log.entries.length = s.appended.length := by
  intro s
  obtain ⟨reads, same⟩ := run_reads streamID calls few
  refine ⟨reads.increasing, fun e listed => (reads.events e listed).2, reads.covered, ?_, ?_⟩
  · intro pages accepted enough some
    obtain ⟨final, cursor⟩ := reads.drained (same.symm ▸ accepted) enough
    rw [← cursor] at some ⊢
    exact final.newest some
  · intro id limit batch read
    rw [SessionEventLog.page_dropped read]
    exact reads.retains.dropped

theorem event_log_cursor_one_page :
    (run "s" [.append 7, .append 8, .page "" 1]).returned.length = 1 ∧
      (run "s" [.append 7, .append 8, .page "" 1]).returned.Pairwise
        (fun left right => left.eventSequence < right.eventSequence) :=
  ⟨by decide, (event_log_cursor "s" [.append 7, .append 8, .page "" 1] (by decide)).1⟩

/-- The count of dropped events starts again after `2 ^ 64`. -/
theorem dropped_count_wraps : ∃ (calls : List (EventCall Nat)) (batch : SessionEventBatch Nat),
    (run "s" calls).log.page "" (run "s" calls).cursor 1 = .ok batch ∧
      batch.eventsDroppedTotal + (run "s" calls).log.entries.length ≠
        (run "s" calls).appended.length := by
  have filled : ∀ count, (run "s" (.replicate count (.append 0))).log.Filled count ∧
        (run "s" (.replicate count (.append 0))).appended.length = count := by
    intro count
    induction count with
    | zero => exact ⟨filled_new "s", rfl⟩
    | succ count ih =>
      rw [replicate_succ', run_concat]
      exact ⟨ih.1.append 0, by simpa [step] using ih.2⟩
  obtain ⟨count, wraps⟩ : ∃ count, count = 2 ^ 64 + maxSessionEvents := ⟨_, rfl⟩
  obtain ⟨⟨length, dropped⟩, appended⟩ := filled count
  generalize List.replicate count (EventCall.append 0) = calls at *
  have read : ∃ batch, (run "s" calls).log.page "" (run "s" calls).cursor 1 = .ok batch := by
    rw [SessionEventLog.page, if_neg (fun foreign => foreign.1 rfl)]
    dsimp only
    split
    · exact ⟨_, rfl⟩
    split <;> exact ⟨_, rfl⟩
  obtain ⟨batch, read⟩ := read
  refine ⟨calls, batch, read, ?_⟩
  rw [SessionEventLog.page_dropped read, dropped, wraps, Nat.add_sub_cancel]
  omega

end EventReading

end WgQuic.Bind
