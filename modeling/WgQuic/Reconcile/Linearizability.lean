import WgQuic.Lib.VersionedRegister
import WgQuic.Reconcile.Coordinator

/-!
# Linearizability of the coordinator

Any interleaving of callers and workers is a sequence of critical sections.
Behind them is a versioned register whose value is the desired configuration,
whose version is the generation and whose pending update is the executing
transaction.  It moves exactly when a committed result is recorded.
-/

namespace WgQuic.Reconcile

open List Coordinator
open WgQuic.Configuration (Config)

variable {Fingerprint : Type}

/-- One critical section, with the values it reads from outside: the clock,
the order of equal cache entries, and what an executor and its context
report. -/
inductive Action where
  | submit (request : Request) (now : Int) (tie : String → Nat)
  | progress (pointer : Nat) (state : State)
  | complete (worker : Nat) (cancelled : Option String) (apply : ApplyResult)
      (now : Int) (tie : String → Nat)
  | transactionStatus (now : Int) (tie : String → Nat)
  | status (now : Int) (tie : String → Nat)
  | close
  | closeFinish

def Action.completes : Action → Bool
  | .complete .. => true
  | _ => false

/-- A step is missing where the code blocks: a worker that does not exist, or
`Close` waiting for its workers. -/
def Coordinator.step [DecidableEq Fingerprint]
    (options : Options Fingerprint) (c : Coordinator Fingerprint) :
    Action → Option (Coordinator Fingerprint)
  | .submit request now tie => some (c.submit options now tie request).1
  | .progress pointer state => some (c.setProgress pointer state)
  | .complete index cancelled apply now tie =>
    c.workers[index]?.map fun worker =>
      { c.complete options now tie worker cancelled apply with
        workers := c.workers.eraseIdx index }
  | .transactionStatus now tie | .status now tie =>
    some (c.evictLocked options now tie)
  | .close => some c.close
  | .closeFinish => if c.closed ∧ c.workers = [] then some c.closeFinish else none

/-- An entry keeps its request and whether it is done.  A completed one does not
change at all. -/
structure RequestEntry.Keeps (entry later : RequestEntry Fingerprint) : Prop where
  requestID : later.result.requestID = entry.result.requestID
  fingerprint : later.fingerprint = entry.fingerprint
  done : later.done = entry.done
  completed : entry.completedAt ≠ 0 → later = entry

/-- The entries stay, and a new one that is finished was not committed. -/
structure KeepsEntries (c next : Coordinator Fingerprint) : Prop where
  kept : ∀ (pointer : Nat) entry, c.store[pointer]? = some entry →
    ∃ later, next.store[pointer]? = some later ∧ entry.Keeps later
  fresh : ∀ (pointer : Nat) entry, c.store[pointer]? = none →
    next.store[pointer]? = some entry → entry.done = true →
      entry.result.state ≠ .committed ∧ entry.result.generation = c.generation

theorem KeepsEntries.of_store {c next : Coordinator Fingerprint} (same : next.store = c.store) :
    KeepsEntries c next := by
  constructor
  · intro pointer entry found
    exact ⟨entry, same ▸ found, rfl, rfl, rfl, fun _ => rfl⟩
  · intro pointer entry absent found
    rw [same, absent] at found
    cases found

theorem KeepsEntries.append {c next : Coordinator Fingerprint} {entry : RequestEntry Fingerprint}
    (added : next.store = c.store ++ [entry]) (finished : entry.done = true →
      entry.result.state ≠ .committed ∧ entry.result.generation = c.generation) :
    KeepsEntries c next := by
  constructor
  · intro pointer old found
    have bound := (List.getElem?_eq_some_iff.mp found).1
    refine ⟨old, ?_, rfl, rfl, rfl, fun _ => rfl⟩
    rw [added, getElem?_append_left bound, found]
  · intro pointer last absent found
    have beyond := getElem?_eq_none_iff.mp absent
    rw [added, getElem?_append_right beyond, getElem?_singleton] at found
    split at found
    · cases found
      exact finished
    · cases found

theorem KeepsEntries.modify {c next : Coordinator Fingerprint} {pointer : Nat}
    {change : RequestEntry Fingerprint → RequestEntry Fingerprint}
    (changed : next.store = c.store.modify pointer change)
    (keeps : ∀ entry, c.store[pointer]? = some entry → entry.Keeps (change entry)) :
    KeepsEntries c next := by
  constructor
  · intro other entry found
    rw [changed]
    by_cases here : pointer = other
    · subst here
      exact ⟨change entry, by simp [found], keeps entry found⟩
    · exact ⟨entry, by simp [here, found], rfl, rfl, rfl, fun _ => rfl⟩
  · intro other entry absent found
    rw [changed, getElem?_modify, absent] at found
    cases found

/-- A worker and the entry it will finish. -/
structure Worker.Owns (c : Coordinator Fingerprint) (worker : Worker) : Prop where
  active : c.active = worker.transaction.requestID
  named : worker.transaction.requestID ≠ ""
  next : worker.transaction.nextGeneration = (worker.transaction.baseGeneration + 1) % 2 ^ 64
  entry : ∃ entry, c.store[worker.entry]? = some entry ∧
    entry.result.requestID = worker.transaction.requestID ∧ entry.done = false

/-- At most one worker runs, and the active slot is set exactly while it
does. -/
inductive Executing (c : Coordinator Fingerprint) : Prop where
  | idle (workers : c.workers = []) (active : c.active = "")
  | busy (worker : Worker) (workers : c.workers = [worker]) (owns : worker.Owns c)

variable {c : Coordinator Fingerprint} {time : Int} {next : Coordinator Fingerprint}

theorem Executing.frame (executing : Executing c)
    (workers : next.workers = c.workers) (active : next.active = c.active)
    (store : KeepsEntries c next) : Executing next := by
  cases executing with
  | idle noWorkers inactive =>
    exact .idle (workers.trans noWorkers) (active.trans inactive)
  | busy worker single owns =>
    obtain ⟨entry, found, sameID, running⟩ := owns.entry
    obtain ⟨later, keptFound, keeps⟩ := store.kept _ _ found
    exact .busy worker (workers.trans single) ⟨active.trans owns.active, owns.named, owns.next,
      later, keptFound, keeps.requestID.trans sameID, keeps.done.trans running⟩

theorem Executing.owns {worker : Worker} (executing : Executing c) (busy : c.workers = [worker]) :
    worker.Owns c := by
  cases executing with
  | idle workers _ => cases busy.symm.trans workers
  | busy only workers owns =>
    cases busy.symm.trans workers
    exact owns

/-! ## The register behind the coordinator -/

open VersionedRegister (Update)

def Transaction.update (transaction : Transaction) : Update Config :=
  { base := transaction.baseGeneration, source := transaction.current
    target := transaction.desired }

def Coordinator.versioned (c : Coordinator Fingerprint) : VersionedRegister Config :=
  { version := c.generation, value := c.current
    pending := c.workers.head?.map fun worker => worker.transaction.update }

/-- The state a transaction ends in, whatever its context reports. -/
def executionState (apply : ApplyResult) : State :=
  let state := apply.state.getD
    (if apply.failure.isNone then .committed else .rolledBack)
  if terminalExecutionState state then state else .degraded

theorem settleApply_state (stage : State) (cancelled : Option String) (apply : ApplyResult) :
    (settleApply stage cancelled apply).1 = executionState apply := by
  simp only [settleApply, executionState]
  generalize apply.state.getD (if apply.failure.isNone then .committed else .rolledBack) = state
  cases cancelled with
  | none => cases terminalExecutionState state <;> simp
  | some message =>
    cases terminalExecutionState state with
    | true =>
      simp only [if_true]
      split <;> rfl
    | false => simp

/-- The entry of a transaction that is finished, with its result. -/
def Records (c next : Coordinator Fingerprint) (worker : Worker) (state : State) : Prop :=
  ∃ now result, result.state = state ∧ result.generation = next.generation ∧
    next.store = c.store.modify worker.entry fun entry => { entry with
      state := result.state, result, completedAt := now, done := true }

/-- What a step does to the register: it accepts a request, it finishes the
executing transaction, or neither. -/
inductive Effect (c : Coordinator Fingerprint) : Action → Coordinator Fingerprint → Prop where
  | keep {action : Action} {next : Coordinator Fingerprint} (quiet : action.completes = false)
      (generation : next.generation = c.generation)
      (current : next.current = c.current)
      (workers : next.workers = c.workers)
      (store : KeepsEntries c next) : Effect c action next
  | accept {request : Request} {now : Int} {tie : String → Nat}
      {next : Coordinator Fingerprint} (worker : Worker)
      (generation : next.generation = c.generation)
      (current : next.current = c.current)
      (idle : c.workers = []) (workers : next.workers = [worker])
      (expected : request.expectedGeneration = c.generation)
      (base : worker.transaction.baseGeneration = c.generation)
      (source : worker.transaction.current = c.current)
      (target : request.desired = some worker.transaction.desired)
      (store : KeepsEntries c next) : Effect c (.submit request now tie) next
  | finish {cancelled : Option String} {apply : ApplyResult} {now : Int}
      {tie : String → Nat} {next : Coordinator Fingerprint} (worker : Worker)
      (busy : c.workers = [worker]) (workers : next.workers = [])
      (generation : next.generation = if executionState apply = .committed then
        worker.transaction.nextGeneration else c.generation)
      (current : next.current = if executionState apply = .committed then
        worker.transaction.desired else c.current)
      (records : Records c next worker (executionState apply)) :
      Effect c (.complete 0 cancelled apply now tie) next

/-! ## Every step has one of the effects -/

section Effects

variable {options : Options Fingerprint} {c : Coordinator Fingerprint} {action : Action}
  {next : Coordinator Fingerprint}

/-- A step that neither starts nor finishes a transaction. -/
theorem Executing.keeps (executing : Executing c) (quiet : action.completes = false)
    (generation : next.generation = c.generation) (current : next.current = c.current)
    (workers : next.workers = c.workers) (active : next.active = c.active)
    (store : KeepsEntries c next) : Executing next ∧ Effect c action next :=
  ⟨executing.frame workers active store, .keep quiet generation current workers store⟩

theorem modify_last {α : Type} (items : List α) (last : α) (change : α → α) :
    (items ++ [last]).modify items.length change = items ++ [change last] := by
  induction items with
  | nil => rfl
  | cons item items induction => simp [induction]

/-- Rejecting the entry just registered touches nothing else. -/
theorem finishNew_effect (executing : Executing c) (quiet : action.completes = false) (now : Int)
    (tie : String → Nat) (requestID : String) (fingerprint : Fingerprint) {result : Result}
    (uncommitted : result.state ≠ .committed) (generation : result.generation = c.generation) :
    Executing ((c.register options now requestID fingerprint).1.finishLocked
        options now tie c.store.length result) ∧
      Effect c action ((c.register options now requestID fingerprint).1.finishLocked
          options now tie c.store.length result) :=
  executing.keeps quiet rfl rfl rfl rfl
    (.append (modify_last _ _ _) fun _ => ⟨uncommitted, generation⟩)

theorem accept_effect (executing : Executing c) {request : Request} {desired : Config}
    (wanted : request.desired = some desired) (named : request.requestID ≠ "") (now : Int)
    (tie : String → Nat) (fingerprint : Fingerprint)
    (expected : request.expectedGeneration = c.generation) (inactive : c.active = "") :
    let registered := c.register options now request.requestID fingerprint
    let next := (registered.1.accept options now tie registered.2.1
      registered.2.2 request desired).1
    Executing next ∧ Effect c (.submit request now tie) next := by
  intro registered next
  have idle : c.workers = [] := by
    cases executing with
    | idle workers _ => exact workers
    | busy worker _ owns =>
      exact (owns.named (owns.active.symm.trans inactive)).elim
  simp only [next, accept]
  split
  · exact finishNew_effect executing rfl now tie _ _ nofun rfl
  split
  · exact finishNew_effect executing rfl now tie _ _ nofun rfl
  · have only : ∀ worker, c.workers ++ [worker] = [worker] := fun worker => by rw [idle]; rfl
    refine ⟨.busy _ (only _) ⟨rfl, named, rfl, ?_⟩, .accept _ rfl rfl idle (only _) expected rfl
      rfl wanted (.append (modify_last _ _ _) nofun)⟩
    simp only [registered, register, modify_last]
    exact ⟨_, getElem?_concat_length, rfl, rfl⟩

theorem submitNew_effect (executing : Executing c) {request : Request} {desired : Config}
    (wanted : request.desired = some desired) (named : request.requestID ≠ "") (now : Int)
    (tie : String → Nat) (fingerprint : Fingerprint) :
    Executing (c.submitNew options now tie request desired fingerprint).1 ∧
      Effect c (.submit request now tie)
        (c.submitNew options now tie request desired fingerprint).1 := by
  have unchanged : Executing c ∧ Effect c (.submit request now tie) c :=
    executing.keeps rfl rfl rfl rfl rfl (.of_store rfl)
  unfold submitNew
  split
  · exact unchanged
  · simp only
    split
    · exact finishNew_effect executing rfl now tie _ _ nofun rfl
    · split
      · exact finishNew_effect executing rfl now tie _ _ nofun rfl
      · split
        · exact finishNew_effect executing rfl now tie _ _ nofun rfl
        · rename_i sameGeneration notActive
          exact accept_effect executing wanted named now tie fingerprint
            (not_not.mp sameGeneration) (not_not.mp notActive)

/-- Evicting before a step does not change what the step does. -/
theorem Effect.ofEvicted {entries : AList (fun _ : String => Nat)}
    (effect : Effect { c with entries := entries } action next) : Effect c action next := by
  cases effect with
  | keep quiet generation current workers store =>
    exact .keep quiet generation current workers ⟨store.kept, store.fresh⟩
  | accept worker generation current idle workers expected base source target store =>
    exact .accept worker generation current idle workers expected base source target
      ⟨store.kept, store.fresh⟩
  | finish worker busy workers generation current records =>
    exact .finish worker busy workers generation current records

theorem submit_effect [DecidableEq Fingerprint] (executing : Executing c)
    (request : Request) (now : Int) (tie : String → Nat) :
    Executing (c.submit options now tie request).1 ∧ Effect c (.submit request now tie)
        (c.submit options now tie request).1 := by
  have unchanged : Executing c ∧ Effect c (.submit request now tie) c :=
    executing.keeps rfl rfl rfl rfl rfl (.of_store rfl)
  have evictedKeeps : Executing (c.evictLocked options now tie) ∧
      Effect c (.submit request now tie) (c.evictLocked options now tie) :=
    executing.keeps rfl rfl rfl rfl rfl (.of_store rfl)
  unfold submit
  split
  · exact unchanged
  · exact unchanged
  · rename_i desired valid wanted
    have named : request.requestID ≠ "" := by
      intro empty
      rw [empty] at valid
      simp [validateRequestID] at valid
    split
    · exact unchanged
    · rename_i fingerprint _
      simp only
      split
      · obtain ⟨nextExecuting, effect⟩ := submitNew_effect
          evictedKeeps.1 wanted named now tie fingerprint
        exact ⟨nextExecuting, effect.ofEvicted⟩
      · split
        · exact evictedKeeps
        · split
          · exact evictedKeeps
          · exact evictedKeeps

theorem setProgress_effect (executing : Executing c) (pointer : Nat) (state : State) :
    Executing (c.setProgress pointer state) ∧
      Effect c (.progress pointer state) (c.setProgress pointer state) := by
  unfold setProgress
  split
  · next progresses =>
    refine executing.keeps rfl rfl rfl rfl rfl (.modify rfl fun entry found => ?_)
    refine ⟨rfl, rfl, rfl, fun completed => ?_⟩
    rw [completedAt, found] at progresses
    exact absurd progresses.2 completed
  · exact executing.keeps rfl rfl rfl rfl rfl (.of_store rfl)

/-- The last critical section of a worker frees the active slot and moves the
register exactly when the transaction committed. -/
theorem complete_effect {worker : Worker} (busy : c.workers = [worker]) (owns : worker.Owns c)
    (cancelled : Option String) (apply : ApplyResult) (now : Int) (tie : String → Nat) :
    let next := { c.complete options now tie worker cancelled apply with
      workers := ([] : List Worker) }
    Executing next ∧ Effect c (.complete 0 cancelled apply now tie) next := by
  intro next
  obtain ⟨entry, found, sameID, -⟩ := owns.entry
  have isActive : c.active = entry.result.requestID := owns.active.trans sameID.symm
  have state := settleApply_state entry.state cancelled apply
  generalize settles : settleApply entry.state cancelled apply = settled at state
  obtain ⟨outcome, applied⟩ := settled
  obtain rfl : outcome = executionState apply := state
  have ends : next.active = "" ∧ next.generation = (if executionState apply = .committed then
        worker.transaction.nextGeneration else c.generation) ∧
      (next.current = if executionState apply = .committed then
        worker.transaction.desired else c.current) ∧
      Records c next worker (executionState apply) := by
    simp only [next, complete, found, settles]
    by_cases committed : executionState apply = .committed
    all_goals
      simp only [committed, if_true, if_false]
      split
      · exact ⟨rfl, rfl, rfl, now, _, rfl, rfl, rfl⟩
      · next other => exact absurd isActive other
  obtain ⟨inactive, generation, current, records⟩ := ends
  exact ⟨.idle rfl inactive, .finish worker busy rfl generation current records⟩

theorem close_effect (executing : Executing c) : Executing c.close ∧ Effect c .close c.close := by
  unfold close
  split
  · exact executing.keeps rfl rfl rfl rfl rfl (.of_store rfl)
  · exact executing.keeps rfl rfl rfl rfl rfl (.of_store rfl)

theorem step_effect [DecidableEq Fingerprint] (executing : Executing c)
    (stepped : c.step options action = some next) : Executing next ∧ Effect c action next := by
  cases action with
  | submit request now tie =>
    cases stepped
    exact submit_effect executing request now tie
  | progress pointer state =>
    cases stepped
    exact setProgress_effect executing pointer state
  | complete index cancelled apply now tie =>
    obtain ⟨worker, found, rfl⟩ := Option.map_eq_some_iff.mp stepped
    cases executing with
    | idle workers _ => simp [workers] at found
    | busy only workers owns =>
      have isFirst : index = 0 := by
        have bound := (List.getElem?_eq_some_iff.mp found).1
        rw [workers, length_singleton] at bound
        omega
      subst isFirst
      simp only [workers, getElem?_cons_zero, Option.some.injEq] at found
      subst found
      rw [workers]
      exact complete_effect workers owns cancelled apply now tie
  | transactionStatus | status =>
    cases stepped
    exact executing.keeps rfl rfl rfl rfl rfl (.of_store rfl)
  | close =>
    cases stepped
    exact close_effect executing
  | closeFinish =>
    simp only [step, Option.ite_none_right_eq_some, Option.some.injEq] at stepped
    obtain ⟨_, rfl⟩ := stepped
    exact executing.keeps rfl rfl rfl rfl rfl (.of_store rfl)

end Effects

/-! ## Histories -/

/-- A coordinator together with the requests it accepted and the transactions
it committed, oldest first. -/
structure History (Fingerprint : Type) where
  state : Coordinator Fingerprint
  accepted : List (Request × Transaction) := []
  committed : List Transaction := []

def History.record (history : History Fingerprint) (action : Action)
    (next : Coordinator Fingerprint) : History Fingerprint :=
  match action, history.state.workers, next.workers with
  | .submit request _ _, [], worker :: _ =>
    { history with
      state := next
      accepted := history.accepted ++ [(request, worker.transaction)] }
  | .complete _ _ apply _ _, worker :: _, _ =>
    { history with
      state := next
      committed := history.committed ++
        if executionState apply = .committed then [worker.transaction]
        else [] }
  | _, _, _ => { history with state := next }

/-- The histories of a coordinator under any interleaving. -/
inductive Runs [DecidableEq Fingerprint] (options : Options Fingerprint)
    (initial : Config) : History Fingerprint → Prop where
  | start : Runs options initial { state := Coordinator.new initial }
  | step {history : History Fingerprint} {action : Action}
      {next : Coordinator Fingerprint} (before : Runs options initial history)
      (stepped : history.state.step options action = some next) :
      Runs options initial (history.record action next)

/-- The configuration the committed transactions leave. -/
def desiredAfter (initial : Config) (committed : List Transaction) : Config :=
  (committed.getLast?.map Transaction.desired).getD initial

theorem valueAfter_map (initial : Config) (committed : List Transaction) :
    VersionedRegister.valueAfter initial
      (committed.map Transaction.update) = desiredAfter initial committed := by
  simp [VersionedRegister.valueAfter, desiredAfter, Transaction.update, Function.comp_def]

structure HistoryInv (initial : Config) (history : History Fingerprint) : Prop where
  executing : Executing history.state
  consistent : VersionedRegister.Consistent (2 ^ 64)
    { version := 1, value := initial }
    (history.committed.map Transaction.update) history.state.versioned
  expected : ∀ request transaction, (request, transaction) ∈ history.accepted →
      transaction.baseGeneration = request.expectedGeneration ∧
        request.desired = some transaction.desired
  running : ∀ worker ∈ history.state.workers,
    ∃ request, (request, worker.transaction) ∈ history.accepted
  justified : ∀ transaction ∈ history.committed,
    ∃ request, (request, transaction) ∈ history.accepted

theorem historyInv_start (initial : Config) : HistoryInv initial
      ({ state := Coordinator.new initial } : History Fingerprint) where
  executing := .idle rfl rfl
  consistent := .new (Nat.one_lt_two_pow (by decide)) rfl
  expected := by simp
  running := by simp [Coordinator.new]
  justified := by simp

variable {initial : Config} {history : History Fingerprint}

theorem HistoryInv.record {action : Action}
    (inv : HistoryInv initial history) (executing : Executing next)
    (effect : Effect history.state action next) :
    HistoryInv initial (history.record action next) := by
  have before := inv.consistent
  cases effect with
  | keep quiet generation current workers =>
    have recorded : history.record action next = { history with state := next } := by
      unfold History.record
      split
      · rename_i idle started
        rw [workers, idle] at started
        simp at started
      · simp [Action.completes] at quiet
      · rfl
    have sameRegister : next.versioned = history.state.versioned := by
      simp [versioned, generation, current, workers]
    rw [recorded]
    exact ⟨executing, by rw [sameRegister]; exact before, inv.expected,
      by rw [workers]; exact inv.running, inv.justified⟩
  | accept worker generation current idle workers expected base source target =>
    have started : next.versioned = { history.state.versioned with
        pending := some worker.transaction.update } := by
      simp [versioned, generation, current, workers]
    simp only [History.record, idle, workers]
    refine ⟨executing, ?_, ?_, ?_, ?_⟩
    · rw [started]
      apply before.setPending
      intro update same
      cases same
      exact ⟨base, source⟩
    · intro other transaction member
      rcases mem_append.mp member with earlier | last
      · exact inv.expected other transaction earlier
      · cases mem_singleton.mp last
        exact ⟨base.trans expected.symm, target⟩
    · intro other member
      cases mem_singleton.mp (workers ▸ member)
      exact ⟨_, mem_append_right _ (mem_singleton_self _)⟩
    · intro transaction member
      obtain ⟨other, earlier⟩ := inv.justified transaction member
      exact ⟨other, mem_append_left _ earlier⟩
  | @finish _ apply _ _ _ worker busy workers generation current =>
    simp only [History.record, busy]
    by_cases committed : executionState apply = .committed
    · rw [if_pos committed] at generation current ⊢
      have pending : history.state.versioned.pending = some worker.transaction.update := by
        simp [versioned, busy]
      have moved : next.versioned =
          { version := (worker.transaction.update.base + 1) % 2 ^ 64
            value := worker.transaction.update.target } := by
        simp [versioned, workers, generation, current,
          (inv.executing.owns busy).next, Transaction.update]
      refine ⟨executing, ?_, inv.expected, by simp [workers], ?_⟩
      · rw [moved, map_append]
        exact before.commit pending
      · intro transaction member
        rcases mem_append.mp member with earlier | last
        · exact inv.justified transaction earlier
        · cases mem_singleton.mp last
          exact inv.running worker (by simp [busy])
    · rw [if_neg committed] at generation current ⊢
      have freed : next.versioned = { history.state.versioned with pending := none } := by
        simp [versioned, workers, generation, current]
      rw [append_nil]
      refine ⟨executing, ?_, inv.expected, by simp [workers], inv.justified⟩
      rw [freed]
      exact before.setPending (by simp)

theorem Runs.inv [DecidableEq Fingerprint] {options : Options Fingerprint}
    (run : Runs options initial history) : HistoryInv initial history := by
  induction run with
  | start => exact historyInv_start initial
  | step _ stepped induction =>
    obtain ⟨executing, effect⟩ := step_effect induction.executing stepped
    exact induction.record executing effect

/-! ## Linearizability -/

def Action.commits : Action → Bool
  | .complete _ _ apply _ _ => executionState apply = .committed
  | _ => false

theorem Action.commits_of_quiet {action : Action} (quiet : action.completes = false) :
    action.commits = false := by
  cases action with
  | complete => cases quiet
  | _ => rfl

/-- A step is the one that finishes the entry of a request. -/
def Coordinator.Finishes (c next : Coordinator Fingerprint) (pointer : Nat)
    (entry : RequestEntry Fingerprint) : Prop :=
  next.store[pointer]? = some entry ∧ entry.done = true ∧
    ∀ old, c.store[pointer]? = some old → old.done = false

variable {pointer : Nat} {entry : RequestEntry Fingerprint} {worker : Worker} {state : State}

theorem KeepsEntries.finished (store : KeepsEntries c next)
    (finishes : c.Finishes next pointer entry) :
    entry.result.state ≠ .committed ∧ entry.result.generation = c.generation := by
  obtain ⟨found, done, running⟩ := finishes
  cases before : c.store[pointer]? with
  | none => exact store.fresh pointer entry before found done
  | some old =>
    obtain ⟨later, same, keeps⟩ := store.kept pointer old before
    cases found.symm.trans same
    rw [keeps.done, running old before] at done
    cases done

theorem Records.finished (records : Records c next worker state)
    (finishes : c.Finishes next pointer entry) :
    entry.result.state = state ∧ entry.result.generation = next.generation := by
  obtain ⟨now, result, ended, generation, store⟩ := records
  obtain ⟨found, done, running⟩ := finishes
  rw [store, getElem?_modify] at found
  obtain ⟨old, before, rfl⟩ := Option.map_eq_some_iff.mp found
  by_cases here : worker.entry = pointer
  · rw [if_pos here]
    exact ⟨ended, generation⟩
  · rw [if_neg here, running old before] at done
    cases done

theorem Records.finishes (records : Records c next worker state) (owns : worker.Owns c) :
    ∃ entry, c.Finishes next worker.entry entry := by
  obtain ⟨now, result, -, -, store⟩ := records
  obtain ⟨old, found, -, running⟩ := owns.entry
  refine ⟨_, by rw [store, getElem?_modify_eq, found]; rfl, rfl, ?_⟩
  intro other same
  cases found.symm.trans same
  exact running

/-- The results that a step records say what it does to the register. -/
theorem Effect.finished {action : Action} (executing : Executing c)
    (effect : Effect c action next) :
    (action.completes = true → ∃ worker ∈ c.workers, ∃ entry, c.Finishes next worker.entry entry) ∧
      ∀ pointer entry, c.Finishes next pointer entry →
        (entry.result.state = .committed ↔ action.commits = true) ∧
          entry.result.generation = next.generation := by
  cases effect with
  | keep quiet generation current workers store =>
    rw [quiet, Action.commits_of_quiet quiet, generation]
    refine ⟨nofun, fun pointer entry finishes => ?_⟩
    obtain ⟨uncommitted, same⟩ := store.finished finishes
    exact ⟨iff_of_false uncommitted nofun, same⟩
  | accept worker generation current idle workers expected base source target store =>
    rw [generation]
    refine ⟨nofun, fun pointer entry finishes => ?_⟩
    obtain ⟨uncommitted, same⟩ := store.finished finishes
    exact ⟨iff_of_false uncommitted nofun, same⟩
  | finish worker busy workers generation current records =>
    refine ⟨fun _ => ⟨worker, by simp [busy], records.finishes (executing.owns busy)⟩, ?_⟩
    intro pointer entry finishes
    obtain ⟨ended, same⟩ := records.finished finishes
    rw [ended]
    exact ⟨by simp [Action.commits], same⟩

/-- What becomes of an entry: it keeps its fingerprint, and a result that was recorded. -/
def Retains (pointer : Nat) (entry : RequestEntry Fingerprint)
    (next : Coordinator Fingerprint) : Prop :=
  ∃ later, next.store[pointer]? = some later ∧ later.fingerprint = entry.fingerprint ∧
    (entry.done = true → entry.completedAt ≠ 0 → later = entry)

theorem KeepsEntries.retains (store : KeepsEntries c next)
    (found : c.store[pointer]? = some entry) : Retains pointer entry next := by
  obtain ⟨later, listed, keeps⟩ := store.kept pointer entry found
  exact ⟨later, listed, keeps.fingerprint, fun _ => keeps.completed⟩

/-- The worker that runs is not the one of an entry that is done. -/
theorem Records.retains (records : Records c next worker state)
    (owns : worker.Owns c) (found : c.store[pointer]? = some entry) :
    Retains pointer entry next := by
  obtain ⟨now, result, -, -, store⟩ := records
  rw [Retains, store]
  by_cases here : worker.entry = pointer
  · subst here
    obtain ⟨old, same, -, running⟩ := owns.entry
    cases found.symm.trans same
    refine ⟨{ entry with state := result.state, result, completedAt := now, done := true },
      by simp [found], rfl, ?_⟩
    rw [running]
    nofun
  · exact ⟨entry, by simp [here, found], rfl, fun _ _ => rfl⟩

theorem Effect.retains {action : Action} (executing : Executing c) (effect : Effect c action next)
    (found : c.store[pointer]? = some entry) : Retains pointer entry next := by
  cases effect with
  | keep _ _ _ _ store => exact store.retains found
  | accept _ _ _ _ _ _ _ _ _ store => exact store.retains found
  | finish _ busy _ _ _ records => exact records.retains (executing.owns busy) found

theorem Effect.register_moves {action : Action}
    (executing : Executing c) (effect : Effect c action next)
    (pending : ∀ worker ∈ c.workers, worker.transaction.baseGeneration = c.generation) :
    if action.commits then
      next.generation = (c.generation + 1) % 2 ^ 64 ∧
        ∃ worker ∈ c.workers, next.current = worker.transaction.desired
    else next.generation = c.generation ∧ next.current = c.current := by
  cases effect with
  | keep quiet generation current workers =>
    simp [Action.commits_of_quiet quiet, generation, current]
  | accept worker generation current idle workers expected base source target =>
    simp [Action.commits, generation, current]
  | @finish _ apply _ _ _ worker busy workers generation current =>
    by_cases committed : executionState apply = .committed
    · rw [if_pos committed] at generation current
      simp only [Action.commits, committed, decide_true, if_true]
      refine ⟨?_, worker, by simp [busy], current⟩
      rw [generation, (executing.owns busy).next, pending worker (by simp [busy])]
    · simp [Action.commits, committed, generation, current]

theorem getElem?_updates {committed : List Transaction} {i : Nat} {transaction : Transaction}
    (found : committed[i]? = some transaction) :
    (committed.map Transaction.update)[i]? = some transaction.update := by
  rw [getElem?_map, found, Option.map_some]

/-- In every reachable state at most one transaction executes, from the
configuration and generation of the last commit; generations count commits
modulo `2 ^ 64`; and, until they wrap, no two committed requests expected the
same generation.  Only a commit changes generation or configuration, a step
records a committed result exactly if it is a commit, and every result has the
generation that its step leaves. -/
theorem coordinator_linearizable [DecidableEq Fingerprint]
    {options : Options Fingerprint} {initial : Config}
    {history : History Fingerprint} (run : Runs options initial history) :
    history.state.workers.length ≤ 1 ∧ (∀ worker ∈ history.state.workers,
        worker.transaction.current = history.state.current ∧
          worker.transaction.baseGeneration = history.state.generation) ∧
      history.state.generation = (1 + history.committed.length) % 2 ^ 64 ∧
      history.state.current = desiredAfter initial history.committed ∧
      (∀ (i : Nat) transaction, history.committed[i]? = some transaction → transaction.current =
          desiredAfter initial (history.committed.take i)) ∧
      (∀ transaction ∈ history.committed, ∃ request, (request, transaction) ∈ history.accepted ∧
          transaction.baseGeneration = request.expectedGeneration ∧
          request.desired = some transaction.desired) ∧
      (history.committed.length ≤ 2 ^ 64 →
        ∀ (i j : Nat) left right, history.committed[i]? = some left →
          history.committed[j]? = some right → left.baseGeneration = right.baseGeneration → i = j) ∧
      ∀ action next, history.state.step options action = some next → (if action.commits then
          next.generation = (history.state.generation + 1) % 2 ^ 64 ∧
            ∃ worker ∈ history.state.workers, next.current = worker.transaction.desired
        else
          next.generation = history.state.generation ∧ next.current = history.state.current) ∧
        (action.completes = true → ∃ worker ∈ history.state.workers, ∃ entry,
          history.state.Finishes next worker.entry entry) ∧
        ∀ pointer entry, history.state.Finishes next pointer entry →
          (entry.result.state = .committed ↔ action.commits = true) ∧
            entry.result.generation = next.generation := by
  have inv := run.inv
  have consistent := inv.consistent
  have single : history.state.workers.length ≤ 1 := by
    cases inv.executing with
    | idle workers _ => simp [workers]
    | busy worker workers _ => simp [workers]
  have fromCurrent : ∀ worker ∈ history.state.workers,
      worker.transaction.current = history.state.current ∧
        worker.transaction.baseGeneration = history.state.generation := by
    intro worker member
    have isPending : history.state.versioned.pending = some worker.transaction.update := by
      cases inv.executing with
      | idle workers _ => simp [workers] at member
      | busy only workers _ =>
        rw [workers, mem_singleton] at member
        simp [versioned, workers, member]
    obtain ⟨base, source⟩ := consistent.pending _ isPending
    exact ⟨source, base⟩
  refine ⟨single, fromCurrent, ?_, ?_, ?_, ?_, ?_, ?_⟩
  · have version := consistent.version
    rw [length_map] at version
    exact version
  · have value := consistent.value
    rw [valueAfter_map] at value
    exact value
  · intro i transaction found
    have source := consistent.sources (getElem?_updates found)
    rw [← map_take, valueAfter_map] at source
    exact source
  · intro transaction member
    obtain ⟨request, accepted⟩ := inv.justified transaction member
    exact ⟨request, accepted, inv.expected request transaction accepted⟩
  · intro short i j left right at_i at_j same
    exact consistent.bases_distinct (by simpa using short) (getElem?_updates at_i)
      (getElem?_updates at_j) same
  · intro action next stepped
    obtain ⟨_, effect⟩ := step_effect inv.executing stepped
    exact ⟨effect.register_moves inv.executing fun worker member => (fromCurrent worker member).2,
      effect.finished inv.executing⟩

/-! ## Generations wrap -/

/-- A coordinator whose cache forgets after one nanosecond. -/
def forgetful : Options Unit :=
  { epoch := "epoch", cacheEntries := 256, cacheTTL := 1
    minOperationTimeout := 1, maxOperationTimeout := 2
    digest := fun _ => .ok () }

def bareConfig : Config := { interface := { privateKey := "key".toList } }

def peerConfig : Config := { bareConfig with peers := [{ publicKey := "peer".toList }] }

/-- Add the peer if it is absent, remove it otherwise. -/
def toggled (config : Config) : Config :=
  if config = bareConfig then peerConfig else bareConfig

theorem toggled_accepted {config : Config} (known : config = bareConfig ∨ config = peerConfig) :
    (compare config (toggled config)).restartRequired = false ∧
      (compare config (toggled config)).changed = true ∧
      (toggled config = bareConfig ∨ toggled config = peerConfig) := by
  rcases known with rfl | rfl <;> decide

/-- Idle, with at most one entry in the cache, which was completed at `time`. -/
structure Ready (c : Coordinator Unit) (time : Int) : Prop where
  idle : c.workers = []
  inactive : c.active = ""
  isOpen : c.closed = false
  positive : 0 < time
  known : c.current = bareConfig ∨ c.current = peerConfig
  cached : c.entries = ∅ ∨ ∃ pointer, c.entries = (∅ : AList _).insert "request" pointer ∧
    c.completedAt pointer = time

theorem evictLocked_single {c : Coordinator Unit} {pointer : Nat}
    (cached : c.entries = (∅ : AList _).insert "request" pointer) (positive : 0 < time)
    (completed : c.completedAt pointer = time) (now : Int) :
    c.evictLocked forgetful now (fun _ => 0) =
      { c with entries := if now - time ≥ 1 then ∅ else c.entries } := by
  have single : c.entries.entries = [⟨"request", pointer⟩] := by rw [cached]; rfl
  have nonzero : time ≠ 0 := by omega
  by_cases expired : now - time ≥ 1
  · have erased : (AList.singleton "request" pointer : AList fun _ => Nat).erase "request" = ∅ :=
      AList.ext rfl
    simp [evictLocked, completed, nonzero, forgetful, expired, cached, erased]
  · have early : now - time < 1 := by omega
    simp [evictLocked, single, completed, nonzero, forgetful, early]

theorem Ready.evicts {c : Coordinator Unit} (ready : Ready c time) :
    c.evictLocked forgetful (time + 1) (fun _ => 0) = { c with entries := ∅ } := by
  rcases ready.cached with empty | ⟨pointer, cached, completed⟩
  · simp [evictLocked, empty]
  · rw [evictLocked_single cached ready.positive completed, if_pos (by omega)]

def toggleRequest (c : Coordinator Unit) : Request :=
  { expectedEpoch := "epoch", expectedGeneration := c.generation
    requestID := "request", desired := some (toggled c.current) }

def Coordinator.toggle (c : Coordinator Unit) (now : Int) : Worker where
  entry := c.store.length
  transaction := c.transactionOf forgetful (toggleRequest c) (toggled c.current)
  deadline := operationDeadline forgetful now 0

/-- The idle coordinator after it has accepted the request. -/
def Coordinator.toggling (c : Coordinator Unit) (now : Int) : Coordinator Unit :=
  let diff := compare c.current (toggled c.current)
  { c with
    entries := (∅ : AList _).insert "request" c.store.length
    active := "request"
    store := c.store ++ [{
      fingerprint := (), createdAt := now, state := .accepted
      result := {
        epoch := "epoch", requestID := "request", state := .accepted
        generation := c.generation, added := diff.added
        updated := diff.updated.map PeerChange.publicKey
        removed := diff.removed, changed := diff.changed } }]
    workers := [c.toggle now] }

theorem Ready.submits {c : Coordinator Unit} (ready : Ready c time) :
    c.step forgetful (.submit (toggleRequest c) (time + 1) fun _ => 0) =
      some (c.toggling (time + 1)) := by
  obtain ⟨noRestart, changed, -⟩ := toggled_accepted ready.known
  have valid : validateRequestID "request" = none := by decide
  have epoch : forgetful.epoch = "epoch" := rfl
  have printed : ∀ request, forgetful.requestFingerprint request = .ok () := fun _ => rfl
  simp [step, submit, toggleRequest, valid, printed, epoch, ready.evicts,
    submitNew, register, accept, toggling,
    toggle, transactionOf, modify_last, ready.isOpen, ready.inactive, ready.idle,
    noRestart, changed]

theorem complete_committed (options : Options Fingerprint) (now : Int) (tie : String → Nat)
    {worker : Worker} {entry : RequestEntry Fingerprint}
    (found : c.store[worker.entry]? = some entry) (isActive : c.active = entry.result.requestID) :
    ∃ last result, c.complete options now tie worker none { state := some .committed } =
      { evictLocked options now tie { c with
          generation := worker.transaction.nextGeneration
          current := worker.transaction.desired, last
          store := c.store.modify worker.entry fun old => { old with
            state := .committed, result, completedAt := now, done := true } } with
        active := "" } := by
  simp only [complete, found, settleApply,
    Option.getD_some, terminalExecutionState, if_true, finishLocked, evictLocked, isActive]
  exact ⟨_, _, rfl⟩

theorem Ready.completes {c : Coordinator Unit} (ready : Ready c time) : ∃ after,
    (c.toggling (time + 1)).step forgetful
      (.complete 0 none { state := some .committed } (time + 1) fun _ => 0) = some after ∧
      Ready after (time + 1) := by
  have positive := ready.positive
  have later : 0 < time + 1 := by omega
  obtain ⟨last, result, completed⟩ := @complete_committed Unit (c.toggling (time + 1)) forgetful
    (time + 1) (fun _ => 0) (c.toggle (time + 1)) _ getElem?_concat_length rfl
  rw [evictLocked_single rfl later (by
    simp [toggling, toggle, completedAt])] at completed
  refine ⟨_, rfl, ?_⟩
  change Ready { complete forgetful (time + 1) (fun _ => 0) (c.toggling (time + 1))
    (c.toggle (time + 1)) none { state := some .committed } with workers := [] } (time + 1)
  rw [completed]
  refine ⟨rfl, rfl, ready.isOpen, later, (toggled_accepted ready.known).2.2,
    .inr ⟨c.store.length, ?_, ?_⟩⟩
  · simp [toggling]
  · simp [toggling, toggle, completedAt]

theorem Ready.commits {history : History Unit}
    (run : Runs forgetful initial history) (ready : Ready history.state time) :
    ∃ next transaction, Runs forgetful initial next ∧ Ready next.state (time + 1) ∧
      next.committed = history.committed ++ [transaction] := by
  have submitted := run.step ready.submits
  have recorded : history.record (.submit (toggleRequest history.state) (time + 1) fun _ => 0)
      (history.state.toggling (time + 1)) =
      { history with
        state := history.state.toggling (time + 1)
        accepted := history.accepted ++ [(toggleRequest history.state,
          (history.state.toggle (time + 1)).transaction)] } := by
    simp [History.record, ready.idle, toggling]
  rw [recorded] at submitted
  obtain ⟨after, stepped, again⟩ := ready.completes
  exact ⟨_, _, submitted.step stepped, again, rfl⟩

theorem ready_start : Ready (Coordinator.new bareConfig) 1 where
  idle := rfl
  inactive := rfl
  isOpen := rfl
  positive := by decide
  known := .inl rfl
  cached := .inl rfl

theorem commits_any (count : Nat) : ∃ history time, Runs forgetful bareConfig history ∧
      Ready history.state time ∧ history.committed.length = count := by
  induction count with
  | zero => exact ⟨_, 1, Runs.start, ready_start, rfl⟩
  | succ count induction =>
    obtain ⟨history, time, run, ready, length⟩ := induction
    obtain ⟨next, transaction, nextRun, nextReady, committed⟩ := ready.commits run
    exact ⟨next, time + 1, nextRun, nextReady, by simp [committed, length]⟩

theorem generation_reused : ∃ (history : History Unit) (i j : Nat) (left right : Transaction),
      Runs forgetful bareConfig history ∧ i ≠ j ∧
      history.committed[i]? = some left ∧
      history.committed[j]? = some right ∧
      left.baseGeneration = right.baseGeneration := by
  obtain ⟨cycle, isCycle⟩ : ∃ cycle : Nat, cycle = 2 ^ 64 := ⟨_, rfl⟩
  obtain ⟨history, _, run, _, length⟩ := commits_any (cycle + 1)
  have bases : ∀ (i : Nat) transaction,
      history.committed[i]? = some transaction → transaction.baseGeneration = (1 + i) % 2 ^ 64 := by
    intro i transaction found
    exact run.inv.consistent.bases (getElem?_updates found)
  have first := getElem?_eq_getElem (show 0 < history.committed.length by omega)
  have last := getElem?_eq_getElem (show cycle < history.committed.length by omega)
  refine ⟨history, 0, cycle, _, _, run, by omega, first, last, ?_⟩
  rw [bases 0 _ first, bases cycle _ last, isCycle, Nat.add_mod_right]

theorem coordinator_linearizable_one_commit :
    ∃ history : History Unit, Runs forgetful bareConfig history ∧
      history.committed.length = 1 ∧ history.state.generation = 2 := by
  obtain ⟨history, _, run, _, length⟩ := commits_any 1
  refine ⟨history, run, length, ?_⟩
  rw [(coordinator_linearizable run).2.2.1, length]
  decide

end WgQuic.Reconcile
