import Mathlib.Data.Finset.Basic
import Mathlib.Data.List.Sort
import WgQuic.Lib.Tally

/-!
# The status cache of the desktop application

Four workers read the status of tunnels; callers of `collect` queue the reads and return what the
cache holds.  A step is what one thread does while it holds a lock, or between two locks.
-/

namespace WgQuic.Desktop

open List

abbrev workerCount : Nat := 4
def queuedReads : Nat := 64

-- Instants and durations in milliseconds.
def selectedTTL : Nat := 1000
def backgroundTTL : Nat := 10000
def staleAfter : Nat := 15000
def snapshotWait : Nat := 500

variable {Value : Type}

structure TunnelView (Value : Type) where
  name : String
  configPath : String
  running : Bool
  statusState : String
  statusCode : Option String
  sampledAt : Nat
  status : Option Value
  statusDetail : Option String

/-- Its branch for a read that failed. -/
def tunnelStatusView (name configPath error : String) : TunnelView Value :=
  { name, configPath, running := false, statusState := "unknown"
    statusCode := some "status_unavailable", sampledAt := 0, status := none
    statusDetail := some error }

structure Job where
  generation : Nat
  name : String
  path : String
  quick : String

abbrev JobKey : Type := Nat × String

def Job.key (job : Job) : JobKey := (job.generation, job.name)

structure Cached (Value : Type) where
  since : Nat
  view : TunnelView Value

/-- Where a worker is in its loop. -/
inductive Worker (Value : Type) where
  | idle
  | received (job : Job)
  | outdated (job : Job)
  | checked (job : Job)
  | reading (job : Job)
  | finished (job : Job) (view : TunnelView Value)

def Worker.job : Worker Value → Option Job
  | .idle => none
  | .received job | .outdated job | .checked job | .reading job | .finished job _ => some job

/-- Whether a job with the key is in the worker's hands. -/
def Worker.holds (phase : Worker Value) (key : JobKey) : Nat :=
  if phase.job.map Job.key = some key then 1 else 0

/-- The steps left for the job in hand. -/
def Worker.stages : Worker Value → Nat
  | .idle => 0
  | .received _ => 4
  | .checked _ => 3
  | .reading _ => 2
  | .outdated _ | .finished .. => 1

section Holds

variable {phase : Worker Value} {job : Job} {key : JobKey}

theorem Worker.holds_of_job (held : phase.job = some job) :
    phase.holds key = if job.key = key then 1 else 0 := by
  simp [holds, held]

theorem Worker.holds_idle : (idle : Worker Value).holds key = 0 :=
  rfl

end Holds

structure Request where
  profiles : List (String × String)
  quick : String
  selected : Option String
  force : Bool

/-- A caller inside the loop that queues reads; it holds the lock of the state. -/
structure Enqueuing where
  request : Request
  generation : Nat
  rest : List (String × String)

/-- A caller that waits for `changed`. -/
structure Waiting where
  request : Request
  generation : Nat
  deadline : Nat

/-- A view that `collect` returns, by the branch it comes from. -/
inductive Answer (Value : Type) where
  | cached (name : String) (view : TunnelView Value)
  | pending (view : TunnelView Value)

/-- What happened, for the statements about runs. -/
inductive Event (Value : Type) where
  | invalidated
  | started (worker : Fin workerCount) (job : Job)
  | finished (worker : Fin workerCount) (job : Job) (view : TunnelView Value)
  | collected (answers : List (Answer Value))

def Event.worker : Event Value → Option (Fin workerCount)
  | .started worker _ | .finished worker .. => some worker
  | .invalidated | .collected _ => none

structure StatusCache (Value : Type) where
  generation : Nat := 0
  entries : String → Option (Cached Value) := fun _ => none
  pending : Finset JobKey := ∅
  jobs : List Job := []
  workers : Fin workerCount → Worker Value := fun _ => .idle
  holder : Option Enqueuing := none
  waiting : List Waiting := []
  /-- The newest first. -/
  history : List (Event Value) := []

namespace StatusCache

def invalidate (s : StatusCache Value) : StatusCache Value :=
  { s with
    generation := (s.generation + 1) % 2 ^ 64
    entries := fun _ => none
    history := .invalidated :: s.history }

/-- The selected tunnel first, then by name. -/
def sortSelected (selected : Option String) (profiles : List (String × String)) :
    List (String × String) :=
  profiles.insertionSort fun left right =>
    if (some left.1 = selected) = (some right.1 = selected) then left.1 ≤ right.1
    else some left.1 = selected

/-- `collect` up to its first loop. -/
def collect (s : StatusCache Value) (request : Request) : StatusCache Value :=
  let profiles := sortSelected request.selected request.profiles
  { s with
    entries := fun name =>
      if profiles.any fun profile => profile.1 = name then s.entries name else none
    holder := some
      { request := { request with profiles }, generation := s.generation, rest := profiles } }

/-- Whether the loop that queues reads skips the tunnel. -/
def skips (s : StatusCache Value) (request : Request) (name : String) (now : Nat) : Bool :=
  let ttl := if some name = request.selected then selectedTTL else backgroundTTL
  !request.force && (s.entries name).any fun entry => now - entry.since < ttl

/-- One turn of that loop. -/
def enqueue (s : StatusCache Value) (caller : Enqueuing) (profile : String × String)
    (now : Nat) : StatusCache Value :=
  if s.skips caller.request profile.1 now then s
  else
    let job : Job :=
      { generation := caller.generation, name := profile.1, path := profile.2
        quick := caller.request.quick }
    if job.key ∈ s.pending then s
    else if s.jobs.length < queuedReads then
      { s with pending := insert job.key s.pending, jobs := s.jobs ++ [job] }
    else { s with pending := (insert job.key s.pending).erase job.key }

def staleView (view : TunnelView Value) : TunnelView Value :=
  { view with
    statusState := "unknown"
    statusCode := some "stale_status"
    statusDetail := some "Status is stale; the tunnel may still be running. Refresh to retry." }

def answer (s : StatusCache Value) (now : Nat) (profile : String × String) : Answer Value :=
  match s.entries profile.1 with
  | some entry =>
    .cached profile.1 (if now - entry.since > staleAfter then staleView entry.view else entry.view)
  | none =>
    .pending
      { tunnelStatusView profile.1 profile.2
          "Waiting for tunnel status; other tunnels can still be managed." with
        statusCode := some "status_pending" }

/-- `collect` after its loops. -/
def build (s : StatusCache Value) (request : Request) (now : Nat) : StatusCache Value :=
  let profiles := request.profiles.insertionSort fun left right => left.1 ≤ right.1
  { s with holder := none, history := .collected (profiles.map (s.answer now)) :: s.history }

/-- The head of the loop that waits. -/
def await (s : StatusCache Value) (caller : Waiting) (now : Nat) : StatusCache Value :=
  if s.generation = caller.generation ∧ (caller.request.profiles.any fun profile =>
        (caller.generation, profile.1) ∈ s.pending) ∧
      now < caller.deadline then
    { s with holder := none, waiting := caller :: s.waiting }
  else s.build caller.request now

def setWorker (s : StatusCache Value) (worker : Fin workerCount) (phase : Worker Value) :
    StatusCache Value :=
  { s with workers := Function.update s.workers worker phase }

/-- The last lock of a worker's turn, after a read. -/
def store (s : StatusCache Value) (worker : Fin workerCount) (job : Job)
    (view : TunnelView Value) (now : Nat) : StatusCache Value :=
  let s := { s with pending := s.pending.erase job.key }.setWorker worker .idle
  if s.generation = job.generation then
    { s with entries := Function.update s.entries job.name (some { since := now, view }) }
  else s

/-- A step of a worker, or of a caller inside its first loop.  The caller keeps the lock of the
state, but the workers still take jobs and read. -/
inductive Serves (s : StatusCache Value) : StatusCache Value → Prop where
  | enqueue {caller : Enqueuing} {profile : String × String} {rest : List (String × String)}
      (now : Nat) (holder : s.holder = some caller) (left : caller.rest = profile :: rest) :
      Serves s { s.enqueue caller profile now with holder := some { caller with rest } }
  | enqueued {caller : Enqueuing} (now : Nat) (holder : s.holder = some caller)
      (left : caller.rest = []) :
      Serves s (s.await ⟨caller.request, caller.generation, now + snapshotWait⟩ now)
  | recv {job : Job} {jobs : List Job} (worker : Fin workerCount)
      (phase : s.workers worker = .idle) (queue : s.jobs = job :: jobs) :
      Serves s ({ s with jobs }.setWorker worker (.received job))
  | outdated {worker : Fin workerCount} {job : Job} (free : s.holder = none)
      (phase : s.workers worker = .received job)
      (differs : s.generation ≠ job.generation) : Serves s (s.setWorker worker (.outdated job))
  | checked {worker : Fin workerCount} {job : Job} (free : s.holder = none)
      (phase : s.workers worker = .received job)
      (same : s.generation = job.generation) : Serves s (s.setWorker worker (.checked job))
  | discard {worker : Fin workerCount} {job : Job} (free : s.holder = none)
      (phase : s.workers worker = .outdated job) :
      Serves s ({ s with pending := s.pending.erase job.key }.setWorker worker .idle)
  | start {worker : Fin workerCount} {job : Job} (phase : s.workers worker = .checked job) :
      Serves s ({ s with history := .started worker job :: s.history }.setWorker worker
        (.reading job))
  | finish {worker : Fin workerCount} {job : Job} (view : TunnelView Value)
      (phase : s.workers worker = .reading job) :
      Serves s ({ s with history := .finished worker job view :: s.history }.setWorker worker
        (.finished job view))
  | store {worker : Fin workerCount} {job : Job} {view : TunnelView Value} (now : Nat)
      (free : s.holder = none) (phase : s.workers worker = .finished job view) :
      Serves s (s.store worker job view now)

/-- A step of any thread.  A caller that waits may wake up at any time. -/
inductive Step (s : StatusCache Value) : StatusCache Value → Prop where
  | invalidate (free : s.holder = none) : Step s s.invalidate
  | collect (free : s.holder = none) (request : Request) : Step s (s.collect request)
  | wake {index : Nat} {caller : Waiting} (now : Nat) (free : s.holder = none)
      (found : s.waiting[index]? = some caller) :
      Step s ({ s with waiting := s.waiting.eraseIdx index }.await caller now)
  | timeout {index : Nat} {caller : Waiting} (now : Nat) (free : s.holder = none)
      (found : s.waiting[index]? = some caller) :
      Step s ({ s with waiting := s.waiting.eraseIdx index }.build caller.request now)
  | serves {t : StatusCache Value} (serves : Serves s t) : Step s t

/-- The cache gets there from its start. -/
def Reached (s : StatusCache Value) : Prop :=
  Relation.ReflTransGen Step {} s

/-- The jobs with a key that are queued or held by a worker. -/
def outstanding (s : StatusCache Value) (key : JobKey) : Nat :=
  (s.jobs.map Job.key).count key +
    tally (List.finRange workerCount) fun worker => (s.workers worker).holds key

def Counted (s : StatusCache Value) : Prop :=
  ∀ key, s.outstanding key = if key ∈ s.pending then 1 else 0

section Counting

variable {s : StatusCache Value} {worker : Fin workerCount} {phase : Worker Value} {job : Job}
  {key : JobKey}

theorem tally_setWorker (amount : Worker Value → Nat) : tally (List.finRange workerCount)
          (fun other => amount ((s.setWorker worker phase).workers other)) +
        amount (s.workers worker) =
      tally (List.finRange workerCount) (fun other => amount (s.workers other)) + amount phase := by
  have change := @tally_change _ (List.finRange workerCount) worker
    (fun other => amount (s.workers other))
    (fun other => amount (Function.update s.workers worker phase other))
    (nodup_finRange _) (mem_finRange worker) (by
      intro other _ different
      rw [Function.update_of_ne different])
  rw [Function.update_self] at change
  exact change

theorem outstanding_setWorker : (s.setWorker worker phase).outstanding key +
      (s.workers worker).holds key = s.outstanding key + phase.holds key := by
  have change := @tally_setWorker _ s worker phase (·.holds key)
  simp only [outstanding] at *
  have queue : (s.setWorker worker phase).jobs = s.jobs := rfl
  rw [queue]
  omega

theorem Counted.proceed (counted : s.Counted) (same : phase.job = (s.workers worker).job) :
    (s.setWorker worker phase).Counted := by
  intro key
  have change := @outstanding_setWorker _ s worker phase key
  rw [Worker.holds, Worker.holds, same, Nat.add_right_cancel_iff] at change
  rw [change]
  exact counted key

/-- A worker lets go of its job and takes the key from the set. -/
theorem Counted.release (counted : s.Counted) (held : (s.workers worker).job = some job) :
    ({ s with pending := s.pending.erase job.key }.setWorker worker .idle).Counted := by
  intro key
  have change := @outstanding_setWorker _ { s with pending := s.pending.erase job.key } worker
    .idle key
  have before := counted key
  rw [Worker.holds_of_job held, Worker.holds_idle] at change
  simp only [outstanding, setWorker, Finset.mem_erase] at *
  by_cases same : key = job.key
  · subst same
    simp only [if_true, ne_eq, not_true_eq_false, false_and, if_false] at *
    split_ifs at before <;> omega
  · simp only [same, Ne.symm same, if_false, ne_eq, not_false_eq_true, true_and] at *
    omega

theorem Counted.take {jobs : List Job} (counted : s.Counted) (queue : s.jobs = job :: jobs)
    (idle : s.workers worker = .idle) :
    ({ s with jobs }.setWorker worker (.received job)).Counted := by
  intro key
  have change := @outstanding_setWorker _ { s with jobs } worker (.received job) key
  rw [idle, Worker.holds_idle, @Worker.holds_of_job _ (.received job) job key rfl] at change
  have same : ({ s with jobs }.setWorker worker (.received job)).outstanding key =
      s.outstanding key := by
    simp only [outstanding, queue, map_cons, count_cons, beq_iff_eq] at *
    omega
  rw [same]
  exact counted key

theorem Counted.queue (counted : s.Counted) (new : job.key ∉ s.pending) :
    { s with pending := insert job.key s.pending, jobs := s.jobs ++ [job] }.Counted := by
  intro key
  have before := counted key
  simp only [outstanding, map_append, map_cons, map_nil, count_append,
    count_singleton, beq_iff_eq, Finset.mem_insert] at *
  by_cases same : key = job.key
  · subst same
    simp only [new, if_false, if_true, true_or] at *
    omega
  · simp only [same, Ne.symm same, if_false, false_or] at *
    omega

end Counting

def invalidations (history : List (Event Value)) : Nat :=
  history.countP fun | .invalidated => true | _ => false

/-- A read of the tunnel brought the view, and nothing was invalidated since it started. -/
def Fresh (history : List (Event Value)) (name : String) (view : TunnelView Value) : Prop :=
  ∃ worker job later during earlier,
    history = later ++ .finished worker job view :: (during ++ .started worker job :: earlier) ∧
    (∀ event ∈ during, event.worker ≠ some worker) ∧ job.name = name ∧
    invalidations later = 0 ∧ invalidations during = 0

/-- The read of a worker started when the generation of its job was not yet over. -/
def Sound (history : List (Event Value)) (worker : Fin workerCount) : Worker Value → Prop
  | .idle | .received _ | .outdated _ => True
  | .checked job => job.generation ≤ invalidations history
  | .reading job => ∃ during earlier, history = during ++ .started worker job :: earlier ∧
      (∀ event ∈ during, event.worker ≠ some worker) ∧ job.generation ≤ invalidations earlier
  | .finished job view => ∃ later during earlier,
      history = later ++ .finished worker job view :: (during ++ .started worker job :: earlier) ∧
      (∀ event ∈ during, event.worker ≠ some worker) ∧ job.generation ≤ invalidations earlier

/-- What the callers got was fresh when they got it. -/
def Served (history : List (Event Value)) : Prop :=
  ∀ later answers before, history = later ++ .collected answers :: before →
    invalidations before < 2 ^ 64 → ∀ name view, .cached name view ∈ answers →
      ∃ read, Fresh before name read ∧ (view = read ∨ view = staleView read)

structure Inv (s : StatusCache Value) : Prop where
  counted : s.Counted
  generation : s.generation = invalidations s.history % 2 ^ 64
  sound : ∀ worker, Sound s.history worker (s.workers worker)
  fresh : invalidations s.history < 2 ^ 64 → ∀ name entry, s.entries name = some entry →
    Fresh s.history name entry.view
  served : Served s.history

section Histories

variable {s : StatusCache Value} {history : List (Event Value)} {event : Event Value}
  {worker : Fin workerCount} {phase : Worker Value} {name : String} {view : TunnelView Value}

theorem invalidations_append (left right : List (Event Value)) :
    invalidations (left ++ right) = invalidations left + invalidations right :=
  countP_append

theorem Fresh.push (fresh : Fresh history name view) (valid : event ≠ .invalidated) :
    Fresh (event :: history) name view := by
  obtain ⟨worker, job, later, during, earlier, rfl, alone, named, since⟩ := fresh
  refine ⟨worker, job, event :: later, during, earlier, rfl, alone, named, ?_, since.2⟩
  cases event with
  | invalidated => exact absurd rfl valid
  | _ => exact since.1

theorem Sound.push (sound : Sound history worker phase) (other : event.worker ≠ some worker) :
    Sound (event :: history) worker phase := by
  cases phase with
  | idle | received | outdated => trivial
  | checked job =>
    have grown := invalidations_append [event] history
    simp only [Sound, singleton_append] at *
    omega
  | reading job =>
    obtain ⟨during, earlier, rfl, alone, started⟩ := sound
    exact ⟨event :: during, earlier, rfl, forall_mem_cons.mpr ⟨other, alone⟩, started⟩
  | finished job view =>
    obtain ⟨later, during, earlier, rfl, rest⟩ := sound
    exact ⟨event :: later, during, earlier, rfl, rest⟩

theorem Served.push (served : Served history)
    (got : ∀ answers, event = .collected answers → invalidations history < 2 ^ 64 →
      ∀ name view, .cached name view ∈ answers →
        ∃ read, Fresh history name read ∧ (view = read ∨ view = staleView read)) :
    Served (event :: history) := by
  intro later answers before split few
  cases later with
  | nil =>
    cases split
    exact got answers rfl few
  | cons first later =>
    cases split
    exact served later answers before rfl few

/-- A job of the running generation was read after the last invalidation. -/
theorem Inv.fresh_of_finished {job : Job} (inv : s.Inv)
    (few : invalidations s.history < 2 ^ 64) (phase : s.workers worker = .finished job view)
    (current : s.generation = job.generation) : Fresh s.history job.name view := by
  have sound := inv.sound worker
  rw [phase] at sound
  obtain ⟨later, during, earlier, split, alone, started⟩ := sound
  have total : invalidations s.history =
      invalidations later + (invalidations during + invalidations earlier) := by
    simp [split, invalidations]
  rw [inv.generation] at current
  refine ⟨worker, job, later, during, earlier, split, alone, rfl, ?_, ?_⟩ <;> omega

end Histories

/-! ## Every step keeps the invariant -/

section Steps

variable {s t : StatusCache Value} {worker : Fin workerCount} {phase : Worker Value} {job : Job}

theorem initial_inv : ({} : StatusCache Value).Inv where
  counted key := by
    have none : tally (List.finRange workerCount) (fun _ => 0) = 0 := by decide
    simpa [outstanding, Worker.holds_idle] using none
  generation := rfl
  sound _ := trivial
  fresh _ _ _ found := by cases found
  served later _ _ split := by cases later <;> cases split

/-- Nothing but the threads' own places changes, and entries may go. -/
theorem Inv.keep (inv : s.Inv) (entries : String → Option (Cached Value))
    (holder : Option Enqueuing) (waiting : List Waiting)
    (kept : ∀ name entry, entries name = some entry → s.entries name = some entry) :
    { s with entries, holder, waiting }.Inv :=
  { inv with fresh := fun few name entry found => inv.fresh few name entry (kept name entry found) }

theorem Inv.build (inv : s.Inv) (request : Request) (now : Nat) : (s.build request now).Inv where
  counted := inv.counted
  generation := inv.generation
  sound worker := (inv.sound worker).push (by simp [Event.worker])
  fresh few name entry found := (inv.fresh few name entry found).push (by simp)
  served := by
    refine inv.served.push ?_
    rintro _ ⟨⟩ few name view cached
    obtain ⟨profile, _, answered⟩ := mem_map.mp cached
    rw [answer] at answered
    split at answered
    case h_1 entry found =>
      cases answered
      refine ⟨entry.view, inv.fresh few _ entry found, ?_⟩
      split
      · exact .inr rfl
      · exact .inl rfl
    case h_2 => cases answered

theorem Inv.await (inv : s.Inv) (caller : Waiting) (now : Nat) : (s.await caller now).Inv := by
  rw [StatusCache.await]
  split
  · exact inv.keep s.entries none _ fun _ _ found => found
  · exact inv.build _ now

theorem Inv.enqueue (inv : s.Inv) (caller : Enqueuing) (profile : String × String) (now : Nat) :
    (s.enqueue caller profile now).Inv := by
  simp only [StatusCache.enqueue]
  split
  · exact inv
  split
  · exact inv
  case isFalse new =>
    split
    · exact { inv with counted := inv.counted.queue new }
    · rw [Finset.erase_insert new]
      exact inv

theorem sound_setWorker {history : List (Event Value)}
    (others : ∀ other, other ≠ worker → Sound history other (s.workers other))
    (own : Sound history worker phase) (other : Fin workerCount) :
    Sound history other ((s.setWorker worker phase).workers other) := by
  by_cases equal : other = worker
  · subst equal
    simpa only [setWorker, Function.update_self] using own
  · simpa only [setWorker, Function.update_of_ne equal] using others other equal

theorem Inv.proceed (inv : s.Inv) (same : phase.job = (s.workers worker).job)
    (sound : Sound s.history worker phase) : (s.setWorker worker phase).Inv :=
  { inv with
    counted := inv.counted.proceed same
    sound := sound_setWorker (fun other _ => inv.sound other) sound }

theorem Inv.invalidate (inv : s.Inv) : s.invalidate.Inv where
  counted := inv.counted
  generation := by
    have grown := invalidations_append [.invalidated] s.history
    rw [StatusCache.invalidate, inv.generation, Nat.mod_add_mod]
    exact congrArg (· % 2 ^ 64) (grown.trans (Nat.add_comm 1 _)).symm
  sound worker := (inv.sound worker).push (by simp [Event.worker])
  fresh _ _ _ found := by cases found
  served := inv.served.push (by rintro _ ⟨⟩)

theorem Inv.record {event : Event Value} (inv : s.Inv) (own : event.worker = some worker)
    (same : phase.job = (s.workers worker).job)
    (sound : Sound (event :: s.history) worker phase) :
    ({ s with history := event :: s.history }.setWorker worker phase).Inv := by
  have valid : event ≠ .invalidated := by
    rintro rfl
    cases own
  refine ⟨inv.counted.proceed same, ?_, ?_, ?_, inv.served.push ?_⟩
  · cases event with
    | invalidated => exact absurd rfl valid
    | _ => exact inv.generation
  · refine sound_setWorker ?_ sound
    intro other different
    refine (inv.sound other).push ?_
    rw [own]
    exact fun same => different (Option.some.inj same).symm
  · intro few name entry found
    refine (inv.fresh ?_ name entry found).push valid
    have grown := invalidations_append [event] s.history
    change invalidations ([event] ++ s.history) < _ at few
    omega
  · rintro _ rfl
    cases own

theorem Inv.release (inv : s.Inv) (held : (s.workers worker).job = some job) :
    ({ s with pending := s.pending.erase job.key }.setWorker worker .idle).Inv :=
  { inv with
    counted := inv.counted.release held
    sound := sound_setWorker (fun other _ => inv.sound other) trivial }

theorem Inv.store {view : TunnelView Value} (inv : s.Inv) (now : Nat)
    (phase : s.workers worker = .finished job view) : (s.store worker job view now).Inv := by
  have released := @Inv.release _ s worker job inv (by rw [phase]; rfl)
  simp only [StatusCache.store]
  split
  case isFalse => exact released
  case isTrue current =>
    refine { released with fresh := ?_ }
    intro few name entry found
    by_cases same : name = job.name
    · subst same
      simp only [Function.update_self, Option.some.injEq] at found
      subst found
      exact inv.fresh_of_finished few phase current
    · simp only [Function.update_of_ne same] at found
      exact released.fresh few name entry found

theorem Inv.serves (inv : s.Inv) (serves : s.Serves t) : t.Inv := by
  cases serves with
  | enqueue now => exact (inv.enqueue _ _ now).keep _ _ _ fun _ _ found => found
  | enqueued now => exact inv.await _ now
  | recv _ phase queue =>
    exact { inv with
      counted := inv.counted.take queue phase
      sound := sound_setWorker (fun other _ => inv.sound other) trivial }
  | outdated _ phase => exact inv.proceed (by rw [phase]; rfl) trivial
  | checked _ phase same =>
    refine inv.proceed (by rw [phase]; rfl) ?_
    rw [inv.generation] at same
    exact same.symm.le.trans (Nat.mod_le _ _)
  | discard _ phase => exact inv.release (by rw [phase]; rfl)
  | @start worker job phase =>
    have sound := inv.sound worker
    rw [phase] at sound
    exact inv.record rfl (by rw [phase]; rfl) ⟨[], s.history, rfl, by simp, sound⟩
  | @finish worker job view phase =>
    have sound := inv.sound worker
    rw [phase] at sound
    obtain ⟨during, earlier, split, rest⟩ := sound
    exact inv.record rfl (by rw [phase]; rfl) ⟨[], during, earlier, by rw [split]; rfl, rest⟩
  | store now _ phase => exact inv.store now phase

theorem Inv.step (inv : s.Inv) (step : s.Step t) : t.Inv := by
  cases step with
  | invalidate => exact inv.invalidate
  | collect _ request =>
    refine inv.keep _ _ _ ?_
    intro name entry found
    split at found
    · exact found
    · cases found
  | wake now => exact (inv.keep _ _ _ fun _ _ found => found).await _ now
  | timeout now => exact (inv.keep _ _ _ fun _ _ found => found).build _ now
  | serves serves => exact inv.serves serves

theorem Reached.inv (reached : s.Reached) : s.Inv := by
  induction reached with
  | refl => exact initial_inv
  | tail _ step ih => exact ih.step step

end Steps

/-! ## Pending reads come to an end -/

/-- The steps that are left, at most. -/
def work (s : StatusCache Value) : Nat :=
  5 * s.jobs.length + tally (List.finRange workerCount) (fun worker => (s.workers worker).stages) +
    s.holder.elim 0 fun caller => 6 * caller.rest.length + 1

section Service

variable {s t : StatusCache Value} {worker : Fin workerCount} {phase : Worker Value}

theorem work_setWorker : (s.setWorker worker phase).work + (s.workers worker).stages =
      s.work + phase.stages := by
  have change := @tally_setWorker _ s worker phase Worker.stages
  simp only [work] at *
  have same : (s.setWorker worker phase).jobs = s.jobs ∧
      (s.setWorker worker phase).holder = s.holder := ⟨rfl, rfl⟩
  rw [same.1, same.2]
  omega

theorem await_work (caller : Waiting) (now : Nat) : (s.await caller now).work =
      { s with holder := none }.work := by
  rw [await]
  split <;> rfl

theorem enqueue_work (caller : Enqueuing) (profile : String × String) (now : Nat)
    (rest : List (String × String)) :
    { s.enqueue caller profile now with holder := some { caller with rest } }.work ≤
      { s with holder := some { caller with rest } }.work + 5 := by
  simp only [enqueue]
  split
  · omega
  split
  · omega
  split
  · simp only [work, length_append, length_singleton]
    omega
  · simp only [work]
    omega

theorem Serves.work_lt (serves : s.Serves t) : t.work < s.work := by
  have moves : ∀ {worker : Fin workerCount} {phase : Worker Value},
      phase.stages < (s.workers worker).stages → (s.setWorker worker phase).work < s.work := by
    intro worker phase fewer
    have change := @work_setWorker _ s worker phase
    omega
  cases serves with
  | @enqueue caller profile rest now holder left =>
    have grown := @enqueue_work _ s caller profile now rest
    simp only [work, holder, left, Option.elim, length_cons] at *
    omega
  | enqueued now holder =>
    rw [await_work]
    simp only [work, holder, Option.elim]
    omega
  | @recv job jobs worker phase queue =>
    have change := @work_setWorker _ { s with jobs } worker (.received job)
    simp only [work, queue, phase, length_cons, Worker.stages] at *
    omega
  | outdated _ phase | checked _ phase | discard _ phase | start phase | finish _ phase =>
    exact moves (by simp [phase, Worker.stages])
  | @store worker _ _ now _ phase =>
    have less := @moves worker .idle (by simp [phase, Worker.stages])
    simp only [StatusCache.store]
    split <;> exact less

theorem serves_of_busy (free : s.holder = none) (busy : s.workers worker ≠ .idle) :
    ∃ t, s.Serves t := by
  cases phase : s.workers worker with
  | idle => exact absurd phase busy
  | received job =>
    by_cases same : s.generation = job.generation
    · exact ⟨_, .checked free phase same⟩
    · exact ⟨_, .outdated free phase same⟩
  | outdated job => exact ⟨_, .discard free phase⟩
  | checked job => exact ⟨_, .start phase⟩
  | reading job => exact ⟨_, .finish (tunnelStatusView job.name job.path "") phase⟩
  | finished job view => exact ⟨_, .store 0 free phase⟩

/-- Whoever holds the lock goes on, and otherwise a worker does. -/
theorem Counted.serves (counted : s.Counted) (some : s.pending.Nonempty) : ∃ t, s.Serves t := by
  obtain ⟨key, pending⟩ := some
  cases free : s.holder with
  | some caller =>
    cases left : caller.rest with
    | nil => exact ⟨_, .enqueued 0 free left⟩
    | cons profile rest => exact ⟨_, .enqueue 0 free left⟩
  | none =>
    by_cases busy : ∃ worker, s.workers worker ≠ .idle
    · obtain ⟨worker, busy⟩ := busy
      exact serves_of_busy free busy
    push Not at busy
    cases queue : s.jobs with
    | nil =>
      have one := counted key
      have none : tally (List.finRange workerCount) (fun _ => 0) = 0 := by decide
      simp [outstanding, queue, busy, Worker.holds_idle, none, pending] at one
    | cons job jobs => exact ⟨_, .recv 0 (busy 0) queue⟩

end Service

/-- Callers get views of the current generation.  A key is pending while one job with it is
queued or held; then some thread that serves the reads can go on, and at some point they all
have. -/
theorem serves_fresh_views {s : StatusCache Value} (reached : s.Reached) :
    (∀ later answers before, s.history = later ++ .collected answers :: before →
      invalidations before < 2 ^ 64 → ∀ name view, .cached name view ∈ answers →
        ∃ read, Fresh before name read ∧ (view = read ∨ view = staleView read)) ∧
    (∀ key, s.outstanding key = if key ∈ s.pending then 1 else 0) ∧
    (s.pending.Nonempty → ∃ t, s.Serves t) ∧ ∀ t, s.Serves t → t.work < s.work := by
  have inv := reached.inv
  exact ⟨inv.served, inv.counted, inv.counted.serves, fun _ => Serves.work_lt⟩

def oneRequest : Request :=
  { profiles := [("wg0", "wg0.conf")], quick := "wg-quick", selected := none, force := false }

/-- The first read ends after an invalidation, and the caller gets the second one. -/
theorem serves_fresh_views_of_one_read :
    let old : TunnelView Unit := tunnelStatusView "wg0" "wg0.conf" "down"
    let view : TunnelView Unit := tunnelStatusView "wg0" "wg0.conf" "up"
    ∃ s before, Reached s ∧ s.history = .collected [.cached "wg0" view] :: before ∧
      (∃ job, .finished 0 job old ∈ before) ∧ .invalidated ∈ before ∧
      ∃ read, Fresh before "wg0" read ∧ (view = read ∨ view = staleView read) := by
  intro old view
  have reached : Reached _ :=
    .head (.collect rfl oneRequest) <| .head (.serves (.enqueue 0 rfl rfl)) <|
    .head (.serves (.enqueued 0 rfl rfl)) <| .head (.serves (.recv 0 rfl rfl)) <|
    .head (.serves (@Serves.checked _ _ 0 _ rfl rfl rfl)) <|
    .head (.serves (@Serves.start _ _ 0 _ rfl)) <|
    -- the cache is invalidated while the first read is under way
    .head (.invalidate rfl) <|
    .head (.collect rfl oneRequest) <| .head (.serves (.enqueue 1 rfl rfl)) <|
    .head (.serves (.enqueued 1 rfl rfl)) <| .head (.serves (.recv 1 rfl rfl)) <|
    .head (.serves (@Serves.checked _ _ 1 _ rfl rfl rfl)) <|
    .head (.serves (@Serves.start _ _ 1 _ rfl)) <|
    .head (.serves (@Serves.finish _ _ 1 _ view rfl)) <|
    .head (.serves (@Serves.store _ _ 1 _ _ 2 rfl rfl)) <|
    .head (.serves (@Serves.finish _ _ 0 _ old rfl)) <|
    .head (.serves (@Serves.store _ _ 0 _ _ 3 rfl rfl)) <|
    .single (@Step.wake _ _ 0 _ 3 rfl rfl)
  refine ⟨_, _, reached, rfl, ⟨_, mem_cons_self⟩, .tail _ (.tail _ (.tail _ (.head _))), ?_⟩
  exact (serves_fresh_views reached).1 [] _ _ rfl (by decide) "wg0" _ mem_cons_self

end StatusCache

end WgQuic.Desktop
