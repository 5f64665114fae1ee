import Mathlib.Algebra.Group.Nat.Defs
import Mathlib.Data.List.AList
import WgQuic.Reconcile.Diff

/-!
# The reconciliation coordinator

Every critical section under the coordinator's mutex is one step.  Request
entries are shared by pointer between the cache, the waiting callers and the
workers, so they live in a store and the cache maps request identifiers to
positions in it.  Times are nanoseconds since the zero instant; a duration is
their difference, because the only use of `Sub` compares it with an `int64`
duration.
-/

namespace WgQuic.Reconcile

open WgQuic.Configuration (Config Text)

inductive State where
  | accepted
  | validating
  | preparing
  | switching
  | committing
  | finalizing
  | rollingBack
  | committed
  | noOp
  | rejected
  | rolledBack
  | degraded
deriving DecidableEq, Repr

structure Failure where
  code : String
  stage : State
  peer : String := ""
  retryable : Bool := false
  committed : Bool := false
  degraded : Bool := false
  message : String
deriving DecidableEq, Repr

structure Result where
  epoch : String
  requestID : String
  state : State
  generation : Nat
  changed : Bool := false
  added : List Text := []
  updated : List Text := []
  removed : List Text := []
  restartRequired : Bool := false
  cleanupPending : Bool := false
  failure : Option Failure := none
  restartReasons : List String := []
  completedAt : Option Int := none
deriving DecidableEq, Repr

structure Request where
  expectedEpoch : String
  expectedGeneration : Nat
  requestID : String
  deadline : Int := 0
  desired : Option Config

structure Transaction where
  epoch : String
  requestID : String
  baseGeneration : Nat
  nextGeneration : Nat
  current : Config
  desired : Config
  diff : Diff

/-- What an executor returns; `none` is the empty state. -/
structure ApplyResult where
  state : Option State
  cleanupPending : Bool := false
  failure : Option Failure := none

/-- The options after their defaults.  `digest` is the keyed hash of what a request
asks for, and an error when that cannot be encoded. -/
structure Options (Fingerprint : Type) where
  epoch : String
  cacheEntries : Nat
  cacheTTL : Int
  minOperationTimeout : Int
  maxOperationTimeout : Int
  digest : String × Nat × Option Config → Except String Fingerprint

def Options.requestFingerprint {Fingerprint : Type} (options : Options Fingerprint)
    (request : Request) : Except String Fingerprint :=
  options.digest (request.expectedEpoch, request.expectedGeneration, request.desired)

structure RequestEntry (Fingerprint : Type) where
  fingerprint : Fingerprint
  createdAt : Int
  completedAt : Int := 0
  state : State
  result : Result
  done : Bool := false

/-- A goroutine in `execute`. -/
structure Worker where
  entry : Nat
  transaction : Transaction
  deadline : Int

structure Coordinator (Fingerprint : Type) where
  generation : Nat
  current : Config
  store : List (RequestEntry Fingerprint) := []
  entries : AList (fun _ : String => Nat) := ∅
  active : String := ""
  last : Option Result := none
  closed : Bool := false
  shutdownID : String := ""
  workers : List Worker := []
  closeErr : Option String := none
  closeDone : Bool := false

namespace Coordinator

variable {Fingerprint : Type}

def new (initial : Config) : Coordinator Fingerprint :=
  { generation := 1, current := initial }

/-! ## The cache -/

def completedAt (c : Coordinator Fingerprint) (pointer : Nat) : Int :=
  (c.store[pointer]?.map RequestEntry.completedAt).getD 0

/-- `evictLocked`.  Entries that completed at the same time are removed in any
order: `tie` stands for the map order and the unstable sort. -/
def evictLocked (options : Options Fingerprint) (now : Int)
    (tie : String → Nat) (c : Coordinator Fingerprint) :
    Coordinator Fingerprint :=
  let complete := (c.entries.entries.map fun entry =>
    (entry.1, c.completedAt entry.2)).filter fun entry => entry.2 ≠ 0
  let expired := complete.filter fun entry =>
    now - entry.2 ≥ options.cacheTTL
  let terminal := complete.filter fun entry =>
    ¬ now - entry.2 ≥ options.cacheTTL
  let sorted := terminal.mergeSort fun left right =>
    left.2 < right.2 ∨ (left.2 = right.2 ∧ tie left.1 ≤ tie right.1)
  let doomed := expired ++ sorted.take (terminal.length - options.cacheEntries)
  { c with entries := doomed.foldl (fun entries entry =>
      entries.erase entry.1) c.entries }

def finishLocked (options : Options Fingerprint) (now : Int)
    (tie : String → Nat) (c : Coordinator Fingerprint) (pointer : Nat)
    (result : Result) : Coordinator Fingerprint :=
  let result := { result with completedAt := some now }
  evictLocked options now tie { c with
    store := c.store.modify pointer fun entry => { entry with
      state := result.state, result := result, completedAt := now
      done := true }
    last := some result }

def finishRejectedLocked (options : Options Fingerprint) (now : Int)
    (tie : String → Nat) (c : Coordinator Fingerprint) (pointer : Nat)
    (result : Result) (code message : String) (retryable : Bool)
    (reasons : List String) : Coordinator Fingerprint :=
  c.finishLocked options now tie pointer { result with
    state := .rejected, generation := c.generation, restartReasons := reasons
    failure := some { code := code, stage := .validating
                      retryable := retryable, message := message } }

def rejectedResultLocked (options : Options Fingerprint) (now : Int)
    (c : Coordinator Fingerprint) (requestID code message : String)
    (retryable : Bool) : Result :=
  { epoch := options.epoch, requestID := requestID, state := .rejected
    generation := c.generation, completedAt := some now
    failure := some { code := code, stage := .validating
                      retryable := retryable, message := message } }

def operationDeadline (options : Options Fingerprint) (now requested : Int) : Int :=
  let duration :=
    if requested ≠ 0 then requested - now else options.maxOperationTimeout
  let duration := max duration options.minOperationTimeout
  now + min duration options.maxOperationTimeout

/-! ## Submitting -/

def requestIDCharacter (character : Char) : Bool :=
  (character ≥ 'a' && character ≤ 'z') ||
    (character ≥ 'A' && character ≤ 'Z') ||
    (character ≥ '0' && character ≤ '9') ||
    character = '-' || character = '_' || character = '.' || character = ':'

/-- `validateRequestID`; a Lean string is valid UTF-8. -/
def validateRequestID (value : String) : Option String :=
  if value = "" ∨ value.utf8ByteSize > 128 then
    some "request ID must contain between 1 and 128 valid UTF-8 bytes"
  else if value.toList.all requestIDCharacter then none
  else some "request ID contains an unsupported character"

/-- What a call returns: a result, an error, or the entry it waits for. -/
inductive Reply where
  | result (result : Result)
  | error (message : String)
  | wait (pointer : Nat)
  | nothing

/-- A new entry under validation. -/
def register (options : Options Fingerprint) (now : Int)
    (c : Coordinator Fingerprint) (requestID : String)
    (fingerprint : Fingerprint) : Coordinator Fingerprint × Nat × Result :=
  let result : Result :=
    { epoch := options.epoch, requestID := requestID, state := .validating
      generation := c.generation }
  let pointer := c.store.length
  ({ c with
      store := c.store ++ [{ fingerprint := fingerprint, createdAt := now
                             state := .validating, result := result }]
      entries := c.entries.insert requestID pointer }, pointer, result)

/-- The result of a call that finished its own entry. -/
def settled (c : Coordinator Fingerprint) (pointer : Nat) : Reply :=
  match c.store[pointer]? with
  | some entry => .result entry.result
  | none => .nothing

/-- The transaction a request is accepted as. -/
def transactionOf (options : Options Fingerprint)
    (c : Coordinator Fingerprint) (request : Request) (desired : Config) :
    Transaction :=
  { epoch := options.epoch, requestID := request.requestID
    baseGeneration := c.generation
    nextGeneration := (c.generation + 1) % 2 ^ 64
    current := c.current, desired := desired
    diff := compare c.current desired }

/-- The part of `Submit` behind the compare-and-set checks. -/
def accept (options : Options Fingerprint) (now : Int) (tie : String → Nat)
    (c : Coordinator Fingerprint) (pointer : Nat) (result : Result)
    (request : Request) (desired : Config) :
    Coordinator Fingerprint × Reply :=
  let diff := compare c.current desired
  let result := { result with
    added := diff.added, updated := diff.updated.map PeerChange.publicKey
    removed := diff.removed, changed := diff.changed }
  if diff.restartRequired then
    let c := c.finishRejectedLocked options now tie pointer
      { result with restartRequired := true } "restart_required"
      "configuration contains changes that require an interface restart" false
      diff.restartReasons
    (c, c.settled pointer)
  else if ¬ diff.changed then
    let c := c.finishLocked options now tie pointer
      { epoch := options.epoch, requestID := request.requestID, state := .noOp
        generation := c.generation }
    (c, c.settled pointer)
  else
    ({ c with
        store := c.store.modify pointer fun entry => { entry with
          state := .accepted, result := { result with state := .accepted } }
        active := request.requestID
        workers := c.workers ++ [{
          entry := pointer
          transaction := c.transactionOf options request desired
          deadline := operationDeadline options now request.deadline }] }, .wait pointer)

/-- `Submit` for a request identifier that is not cached. -/
def submitNew (options : Options Fingerprint) (now : Int) (tie : String → Nat)
    (c : Coordinator Fingerprint) (request : Request) (desired : Config)
    (fingerprint : Fingerprint) : Coordinator Fingerprint × Reply :=
  if c.closed then (c, .error "reconciliation coordinator is closed")
  else
    let (c, pointer, result) :=
      c.register options now request.requestID fingerprint
    let reject (code message : String) (retryable : Bool) :=
      let c := c.finishRejectedLocked options now tie pointer result code
        message retryable []
      (c, c.settled pointer)
    if request.expectedEpoch ≠ options.epoch then
      reject "stale_epoch" "supervisor epoch does not match" false
    else if request.expectedGeneration ≠ c.generation then
      reject "stale_generation" "desired generation does not match" false
    else if c.active ≠ "" then
      reject "transaction_in_progress" "another desired-state transaction is active" true
    else c.accept options now tie pointer result request desired

def submit [DecidableEq Fingerprint] (options : Options Fingerprint)
    (now : Int) (tie : String → Nat) (c : Coordinator Fingerprint)
    (request : Request) : Coordinator Fingerprint × Reply :=
  match validateRequestID request.requestID, request.desired with
  | some message, _ => (c, .error message)
  | none, none => (c, .error "desired configuration is required")
  | none, some desired =>
    match options.requestFingerprint request with
    | .error message => (c, .error message)
    | .ok fingerprint =>
      let c := c.evictLocked options now tie
      match c.entries.lookup request.requestID with
      | none => c.submitNew options now tie request desired fingerprint
      | some pointer =>
        match c.store[pointer]? with
        | none => (c, .nothing)
        | some existing =>
          if existing.fingerprint ≠ fingerprint then
            (c, .result (c.rejectedResultLocked options now request.requestID "request_id_conflict"
              "request ID was already used for different content" false))
          else (c, .wait pointer)

/-! ## Workers -/

def progressState : State → Bool
  | .accepted | .validating | .preparing | .switching | .committing
  | .finalizing | .rollingBack => true
  | _ => false

def terminalExecutionState : State → Bool
  | .committed | .rolledBack | .degraded => true
  | _ => false

def setProgress (c : Coordinator Fingerprint) (pointer : Nat) (state : State) :
    Coordinator Fingerprint :=
  if progressState state ∧ c.completedAt pointer = 0 then
    { c with store := c.store.modify pointer fun entry => { entry with
        state := state, result := { entry.result with state := state } } }
  else c

/-- The executor's result after the checks of `execute`.  `stage` is the
entry's state and `cancelled` the error of the operation's context. -/
def settleApply (stage : State) (cancelled : Option String)
    (apply : ApplyResult) : State × ApplyResult :=
  let state := apply.state.getD
    (if apply.failure.isNone then .committed else .rolledBack)
  let (state, apply) :=
    if terminalExecutionState state then (state, apply)
    else (.degraded, { state := some .degraded, failure := some {
      code := "invalid_executor_result", stage := stage, degraded := true
      message := "reconciliation executor returned a non-terminal state" } })
  match cancelled with
  | some message =>
    if apply.failure.isNone ∧ state ≠ .committed then
      (state, { apply with failure := some {
        code := "operation_cancelled", stage := stage, retryable := true
        message := message } })
    else (state, apply)
  | none => (state, apply)

/-- The failure recorded in the result of a transaction. -/
def recordedFailure (state : State) (failure : Option Failure) : Option Failure :=
  failure.map fun failure =>
    if state = .committed then { failure with committed := true }
    else if state = .degraded then { failure with degraded := true }
    else failure

/-- The last critical section of `execute`. -/
def complete (options : Options Fingerprint) (now : Int) (tie : String → Nat)
    (c : Coordinator Fingerprint) (worker : Worker) (cancelled : Option String)
    (apply : ApplyResult) : Coordinator Fingerprint :=
  match c.store[worker.entry]? with
  | none => c
  | some entry =>
    let (state, apply) := settleApply entry.state cancelled apply
    let transaction := worker.transaction
    let c :=
      if state = .committed then
        { c with current := transaction.desired
                 generation := transaction.nextGeneration }
      else c
    let c := c.finishLocked options now tie worker.entry { entry.result with
      state := state, cleanupPending := apply.cleanupPending
      failure := recordedFailure state apply.failure
      generation := c.generation
      changed := if state = .committed then true else entry.result.changed }
    if c.active = entry.result.requestID then { c with active := "" } else c

def close (c : Coordinator Fingerprint) : Coordinator Fingerprint :=
  if c.closed then c else { c with closed := true, shutdownID := c.active }

/-- The rest of `Close` once every worker is done. -/
def closeFinish (c : Coordinator Fingerprint) : Coordinator Fingerprint :=
  let degraded := (c.entries.lookup c.shutdownID).bind fun pointer =>
    c.store[pointer]?.filter fun entry =>
      c.shutdownID ≠ "" ∧ entry.result.state = .degraded
  let message :=
    "reconciliation rollback remained degraded during supervisor shutdown"
  { c with
    closeDone := true
    closeErr := degraded.map fun entry =>
      match entry.result.failure with
      | some failure =>
        if failure.message ≠ "" then message ++ ": " ++ failure.message
        else message
      | none => message }

end Coordinator

end WgQuic.Reconcile
