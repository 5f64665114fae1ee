import Mathlib.Algebra.Order.BigOperators.Group.Finset

/-!
# The receive-overflow counter

`Stats` reads the counter of its carrier first and folds the value into the total of the bind later,
under a lock of its own.
-/

namespace WgQuic.Bind.ReceiveOverflow

open Finset

structure Observation where
  supported : Bool := false
  source : String := "unavailable"
  packets : Nat := 0

/-- The fields `receiveOverflow…` of the bind. -/
structure Totals where
  carrier : Option Nat := none
  base : Nat := 0
  rawLast : Nat := 0
  total : Nat := 0

/-- With the total before and after for the event that a changed total records. -/
def observeReceiveQueueOverflow (b : Totals) (carrier : Nat) (observation : Observation) :
    Totals × Observation × Option (Nat × Nat) :=
  if !observation.supported then (b, observation, none) else
  let next : Totals :=
    if b.carrier ≠ some carrier then
      { b with carrier := some carrier, base := b.total, rawLast := 0 }
    else if observation.packets < b.rawLast then
      -- a smaller value is taken for a reset of the counter
      { b with base := b.total }
    else b
  let total := (next.base + observation.packets) % 2 ^ 64
  ({ next with rawLast := observation.packets, total }, { observation with packets := total },
    if total > b.total then some (b.total, total) else none)

structure Carrier where
  supported : Bool
  packets : Nat := 0

def Carrier.receiveQueueOverflowStats (c : Carrier) : Observation :=
  if c.supported then
    { supported := true, source := "linux_so_rxq_ovfl", packets := c.packets }
  else {}

/-- A call of `Stats` that found a carrier. -/
inductive Call where
  | loaded (carrier : Nat)
  | sampled (carrier : Nat) (observation : Observation)
  | returned (observation : Observation)

structure System where
  carriers : List Carrier := []
  state : Option Nat := none
  calls : List Call := []
  totals : Totals := {}
  /-- The largest value read from each carrier so far. -/
  peak : Nat → Nat := fun _ => 0
  /-- The totals that were reported, the newest first. -/
  reports : List Nat := []

inductive Event where
  | opened (supported : Bool)
  | closed
  | overflowed (carrier packets : Nat)
  | stats
  | sample (call : Nat)
  | fold (call : Nat)

namespace System

def step (s : System) : Event → Option System
  | .opened supported =>
    match s.state with
    | some _ => none
    | none => some { s with
        carriers := s.carriers ++ [{ supported }]
        state := some s.carriers.length }
  | .closed => some { s with state := none }
  | .overflowed carrier packets =>
    match s.carriers[carrier]? with
    | none => none
    | some c =>
      if c.packets + packets < 2 ^ 64 then
        some { s with carriers := s.carriers.set carrier { c with packets := c.packets + packets } }
      else none
  | .stats =>
    match s.state with
    | none => some s
    | some carrier => some { s with calls := s.calls ++ [.loaded carrier] }
  | .sample call =>
    match s.calls[call]? with
    | some (.loaded carrier) =>
      match s.carriers[carrier]? with
      | none => none
      | some c =>
        let observation := c.receiveQueueOverflowStats
        some { s with
          calls := s.calls.set call (.sampled carrier observation)
          peak := Function.update s.peak carrier (max (s.peak carrier) observation.packets) }
    | _ => none
  | .fold call =>
    match s.calls[call]? with
    | some (.sampled carrier observation) =>
      let (totals, reported, _) := observeReceiveQueueOverflow s.totals carrier observation
      some { s with
        calls := s.calls.set call (.returned reported)
        totals
        reports := if observation.supported then reported.packets :: s.reports else s.reports }
    | _ => none

/-- The sum over the carriers of the largest value read from each. -/
def heard (s : System) : Nat := ∑ carrier ∈ range s.carriers.length, s.peak carrier

inductive Run (allowed : System → Event → Prop) : System → Prop where
  | start : Run allowed {}
  | step {s next : System} (event : Event) (run : Run allowed s) (permitted : allowed s event)
      (taken : s.step event = some next) : Run allowed next

/-- No value is folded in after a later value of its carrier or a value of a later carrier. -/
def InOrder (s : System) : Event → Prop
  | .fold call => ∀ carrier observation held,
      s.calls[call]? = some (.sampled carrier observation) → observation.supported →
      s.totals.carrier = some held →
      held < carrier ∨ held = carrier ∧ s.totals.rawLast ≤ observation.packets
  | _ => True

end System

variable {b : Totals} {peak peak' : Nat → Nat} {carrier : Nat} {observation : Observation}

structure Totals.Sound (b : Totals) (peak : Nat → Nat) : Prop where
  sum : b.total = b.base + b.rawLast
  unused : b.carrier = none → b.total = 0
  used : ∀ held, b.carrier = some held → b.base ≤ ∑ i ∈ range held, peak i ∧ b.rawLast ≤ peak held

theorem Totals.Sound.mono (sound : b.Sound peak) (grown : ∀ i, peak i ≤ peak' i) :
    b.Sound peak' where
  sum := sound.sum
  unused := sound.unused
  used := fun held holds =>
    ⟨(sound.used held holds).1.trans (sum_le_sum fun i _ => grown i),
      (sound.used held holds).2.trans (grown held)⟩

theorem sum_range_le {small large : Nat} (le : small ≤ large) :
    ∑ i ∈ range small, peak i ≤ ∑ i ∈ range large, peak i :=
  sum_le_sum_of_subset (range_mono le)

theorem Totals.Sound.total_le (sound : b.Sound peak) {count : Nat}
    (known : ∀ held, b.carrier = some held → held < count) :
    b.total ≤ ∑ i ∈ range count, peak i := by
  cases holds : b.carrier with
  | none => exact (sound.unused holds).trans_le (Nat.zero_le _)
  | some held =>
    have parts := sound.used held holds
    have within : ∑ i ∈ range (held + 1), peak i ≤ ∑ i ∈ range count, peak i :=
      sum_range_le (known held holds)
    rw [sum_range_succ] at within
    have sum := sound.sum
    omega

theorem observe_sound (sound : b.Sound peak) (supported : observation.supported)
    (read : observation.packets ≤ peak carrier)
    (fits : ∑ i ∈ range (carrier + 1), peak i < 2 ^ 64)
    (ordered : ∀ held, b.carrier = some held →
      held < carrier ∨ held = carrier ∧ b.rawLast ≤ observation.packets) :
    ∃ next event, observeReceiveQueueOverflow b carrier observation =
        (next, { observation with packets := next.total }, event) ∧
      next.Sound peak ∧ next.carrier = some carrier ∧ b.total ≤ next.total := by
  obtain ⟨base, below, grown, result⟩ : ∃ base,
      base ≤ ∑ i ∈ range carrier, peak i ∧ b.total ≤ base + observation.packets ∧
      observeReceiveQueueOverflow b carrier observation =
        let total := (base + observation.packets) % 2 ^ 64
        ({ carrier := some carrier, base, rawLast := observation.packets, total },
          { observation with packets := total },
          if total > b.total then some (b.total, total) else none) := by
    by_cases holds : b.carrier = some carrier
    · have after := (ordered carrier holds).resolve_left (Nat.lt_irrefl carrier)
      refine ⟨b.base, (sound.used carrier holds).1, ?_, ?_⟩
      · rw [sound.sum]
        omega
      · simp [observeReceiveQueueOverflow, supported, holds, after.2.not_gt]
    · refine ⟨b.total, sound.total_le fun held same => ?_, Nat.le_add_right _ _, ?_⟩
      · exact (ordered held same).resolve_right fun equal => holds (equal.1 ▸ same)
      · simp [observeReceiveQueueOverflow, supported, holds]
  rw [sum_range_succ] at fits
  rw [Nat.mod_eq_of_lt (by omega)] at result
  refine ⟨_, _, result, ⟨rfl, nofun, fun held same => ?_⟩, rfl, grown⟩
  cases same
  exact ⟨below, read⟩

namespace System

structure Counted (s : System) : Prop where
  sound : s.totals.Sound s.peak
  held : ∀ held, s.totals.carrier = some held → held < s.carriers.length
  sampled : ∀ carrier observation, .sampled carrier observation ∈ s.calls →
    carrier < s.carriers.length ∧ observation.packets ≤ s.peak carrier
  reports : ∀ report ∈ s.reports, report ≤ s.totals.total
  sorted : s.reports.Pairwise (· ≥ ·)

variable {s next : System} {event : Event}

theorem le_update (peak : Nat → Nat) (carrier packets i : Nat) :
    peak i ≤ Function.update peak carrier (max (peak carrier) packets) i := by
  by_cases same : i = carrier
  · subst same
    simp
  · simp [same]

theorem step_grows (taken : s.step event = some next) :
    s.carriers.length ≤ next.carriers.length ∧ ∀ i, s.peak i ≤ next.peak i := by
  cases event <;> simp only [step] at taken
  case sample call =>
    split at taken <;> try cases taken
    split at taken <;> cases taken
    exact ⟨Nat.le_refl _, le_update s.peak _ _⟩
  all_goals
    repeat' split at taken
    all_goals cases taken
    all_goals simp

theorem step_heard (taken : s.step event = some next) : s.heard ≤ next.heard :=
  (sum_range_le (step_grows taken).1).trans (sum_le_sum fun i _ => (step_grows taken).2 i)

theorem Counted.step (counted : s.Counted) (fits : next.heard < 2 ^ 64)
    (ordered : s.InOrder event) (taken : s.step event = some next) : next.Counted := by
  have grows := step_grows taken
  obtain ⟨sound, held, sampled, reports, sorted⟩ := counted
  have sound := sound.mono grows.2
  have held := fun i holds => (held i holds).trans_le grows.1
  have sampled : ∀ carrier observation, .sampled carrier observation ∈ s.calls →
      carrier < next.carriers.length ∧ observation.packets ≤ next.peak carrier :=
    fun carrier observation member =>
      ⟨(sampled carrier observation member).1.trans_le grows.1,
        (sampled carrier observation member).2.trans (grows.2 carrier)⟩
  cases event <;> simp only [System.step] at taken
  case sample call =>
    split at taken <;> try cases taken
    split at taken <;> cases taken
    next carrier _ c found =>
    refine ⟨sound, held, fun read observation member => ?_, reports, sorted⟩
    rcases List.mem_or_eq_of_mem_set member with before | here
    · exact sampled read observation before
    · cases here
      exact ⟨(List.getElem?_eq_some_iff.mp found).1, by simp⟩
  case fold call =>
    split at taken <;> try cases taken
    next carrier observation found =>
    have read := sampled carrier observation (List.mem_of_getElem? found)
    have sampled := fun reported i seen
        (member : Call.sampled i seen ∈ s.calls.set call (.returned reported)) =>
      sampled i seen ((List.mem_or_eq_of_mem_set member).resolve_right nofun)
    cases supported : observation.supported with
    | false =>
      have result : observeReceiveQueueOverflow s.totals carrier observation =
          (s.totals, observation, none) := by
        simp [observeReceiveQueueOverflow, supported]
      rw [result]
      exact ⟨sound, held, sampled observation, reports, sorted⟩
    | true =>
      have within : ∑ i ∈ range (carrier + 1), s.peak i < 2 ^ 64 :=
        (sum_range_le read.1).trans_lt fits
      obtain ⟨totals, event, result, sound, now, grown⟩ :=
        observe_sound sound supported read.2 within fun held holds =>
          ordered carrier observation held found supported holds
      rw [result]
      have reports := fun report reported => (reports report reported).trans grown
      refine ⟨sound, fun held same => ?_, sampled _,
        List.forall_mem_cons.mpr ⟨Nat.le_refl _, reports⟩, List.pairwise_cons.mpr ⟨reports, sorted⟩⟩
      rw [now] at same
      cases same
      exact read.1
  case stats =>
    split at taken <;> cases taken
    · exact ⟨sound, held, sampled, reports, sorted⟩
    · exact ⟨sound, held, fun carrier observation member => sampled carrier observation
        ((List.mem_append.mp member).resolve_right (by simp)), reports, sorted⟩
  all_goals
    repeat' split at taken
    all_goals cases taken
    all_goals exact ⟨sound, held, sampled, reports, sorted⟩

theorem Run.counted {s : System} (run : Run InOrder s) (fits : s.heard < 2 ^ 64) : s.Counted := by
  induction run with
  | start => exact ⟨⟨rfl, fun _ => rfl, nofun⟩, nofun, nofun, nofun, .nil⟩
  | step event run permitted taken ih =>
    exact (ih ((step_heard taken).trans_lt fits)).step fits permitted taken

theorem overflow_total_exact {s : System} (run : Run InOrder s) (fits : s.heard < 2 ^ 64) :
    s.reports.Pairwise (· ≥ ·) ∧ ∀ report ∈ s.reports, report ≤ s.heard := by
  have counted := run.counted fits
  refine ⟨counted.sorted, fun report reported => ?_⟩
  exact (counted.reports report reported).trans (counted.sound.total_le counted.held)

theorem overflow_total_of_one_call : ∃ s : System, s.reports = [5] ∧
    s.reports.Pairwise (· ≥ ·) ∧ ∀ report ∈ s.reports, report ≤ s.heard :=
  ⟨_, rfl, overflow_total_exact
    (.step (.fold 0) (.step (.sample 0) (.step .stats (.step (.overflowed 0 5)
      (.step (.opened true) .start trivial rfl) trivial rfl) trivial rfl) trivial rfl) nofun rfl)
    (by decide)⟩

/-- The values 5 and 10 are read in this order, and 10 is folded in first. -/
theorem overflow_counted_twice : ∃ s, Run (fun _ _ => True) s ∧ s.reports = [15, 10] ∧
    s.heard = 10 :=
  ⟨_, .step (.fold 0) (.step (.fold 1) (.step (.sample 1) (.step .stats (.step (.overflowed 0 5)
    (.step (.sample 0) (.step .stats (.step (.overflowed 0 5) (.step (.opened true) .start
      trivial rfl) trivial rfl) trivial rfl) trivial rfl) trivial rfl) trivial rfl) trivial rfl)
    trivial rfl) trivial rfl, rfl, rfl⟩

end System

end WgQuic.Bind.ReceiveOverflow
