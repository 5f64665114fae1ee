import WgQuic.Lib.Program

/-!
# One operation at a time in a shared world

A world in which operations run one after the other: an operation starts as a
program, its calls are answered one by one, it finishes with a result or
crashes half-way, and other things may happen to the world at any point.  An
`Outline` proves an invariant of every reachable state from what holds between
two operations and what each operation's program meets.
-/

structure Scheduler (Call : Type) (Answer : Call → Type)
    (World Operation Result Choice Event : Type) where
  start : World → Operation → Option (World × Program Call Answer Result)
  /-- `Choice` resolves what the world leaves open about an answer. -/
  respond : World → (request : Call) → Choice → Option (Answer request × World)
  finish : World → Operation → Result → World
  crash : World → Operation → Option World
  /-- What happens besides the running operation, if there is one. -/
  happen : Option Operation → World → Event → Option World

namespace Scheduler

variable {Call : Type} {Answer : Call → Type} {World Operation Result Choice Event : Type}

structure State (Call : Type) (Answer : Call → Type)
    (World Operation Result : Type) where
  world : World
  running : Option (Operation × Program Call Answer Result) := none

inductive Action (Operation Choice Event : Type) where
  | start (operation : Operation)
  | answer (choice : Choice)
  | finish
  | crash
  | happen (event : Event)

/-- A restriction on the steps of a run. -/
structure Condition (Call : Type) (Answer : Call → Type)
    (World Operation Event : Type) where
  start : World → Operation → Prop := fun _ _ => True
  answer : Operation → World → (request : Call) → Answer request →
    World → Prop := fun _ _ _ _ _ => True
  crash : World → Operation → Prop := fun _ _ => True
  happen : Option Operation → World → Event → World → Prop :=
    fun _ _ _ _ => True
  decidableStart : ∀ world operation, Decidable (start world operation) := by
    infer_instance
  decidableAnswer : ∀ operation before request reply after,
    Decidable (answer operation before request reply after) := by
    infer_instance
  decidableCrash : ∀ world operation, Decidable (crash world operation) := by
    infer_instance
  decidableHappen : ∀ operation before event after,
    Decidable (happen operation before event after) := by
    infer_instance

attribute [instance] Condition.decidableStart Condition.decidableAnswer
  Condition.decidableCrash Condition.decidableHappen

section Steps

variable
  (scheduler : Scheduler Call Answer World Operation Result Choice Event)
  (condition : Condition Call Answer World Operation Event)

inductive Step : State Call Answer World Operation Result →
    State Call Answer World Operation Result → Prop where
  | start {world after : World} {operation : Operation} {program : Program Call Answer Result}
      (starts : scheduler.start world operation = some (after, program))
      (allowed : condition.start world operation) :
      Step ⟨world, none⟩ ⟨after, some (operation, program)⟩
  | answer {world after : World} {operation : Operation} {request : Call}
      {next : Answer request → Program Call Answer Result} {choice : Choice}
      {reply : Answer request}
      (responds : scheduler.respond world request choice = some (reply, after))
      (allowed : condition.answer operation world request reply after) :
      Step ⟨world, some (operation, .call request next)⟩ ⟨after, some (operation, next reply)⟩
  | finish {world : World} {operation : Operation} {result : Result} :
      Step ⟨world, some (operation, .done result)⟩ ⟨scheduler.finish world operation result, none⟩
  | crash {world after : World} {operation : Operation} {program : Program Call Answer Result}
      (crashes : scheduler.crash world operation = some after)
      (allowed : condition.crash world operation) :
      Step ⟨world, some (operation, program)⟩ ⟨after, none⟩
  | happen {world after : World} {running : Option (Operation × Program Call Answer Result)}
      {event : Event}
      (happens : scheduler.happen (running.map Prod.fst) world event = some after)
      (allowed : condition.happen (running.map Prod.fst) world event after) :
      Step ⟨world, running⟩ ⟨after, running⟩

/-- The states of the runs whose steps all meet the condition. -/
def Reaches : State Call Answer World Operation Result →
    State Call Answer World Operation Result → Prop :=
  Relation.ReflTransGen (Step scheduler condition)

def step (state : State Call Answer World Operation Result) : Action Operation Choice Event →
      Option (State Call Answer World Operation Result)
  | .start operation =>
    match state.running with
    | some _ => none
    | none =>
      if condition.start state.world operation then
        (scheduler.start state.world operation).map
          fun (world, program) => ⟨world, some (operation, program)⟩
      else none
  | .answer choice =>
    match state.running with
    | some (operation, .call request next) =>
      match scheduler.respond state.world request choice with
      | some (reply, after) =>
        if condition.answer operation state.world request reply after
        then some ⟨after, some (operation, next reply)⟩
        else none
      | none => none
    | _ => none
  | .finish =>
    match state.running with
    | some (operation, .done result) =>
      some ⟨scheduler.finish state.world operation result, none⟩
    | _ => none
  | .crash =>
    match state.running with
    | some (operation, _) =>
      if condition.crash state.world operation then
        (scheduler.crash state.world operation).map fun world =>
          ⟨world, none⟩
      else none
    | none => none
  | .happen event =>
    match scheduler.happen (state.running.map Prod.fst) state.world event
    with
    | some after =>
      if condition.happen (state.running.map Prod.fst) state.world event
        after
      then some ⟨after, state.running⟩
      else none
    | none => none

def run (state : State Call Answer World Operation Result) : List (Action Operation Choice Event) →
      Option (State Call Answer World Operation Result)
  | [] => some state
  | action :: actions =>
    match step scheduler condition state action with
    | some next => run next actions
    | none => none

end Steps

variable
  {scheduler : Scheduler Call Answer World Operation Result Choice Event}
  {condition : Condition Call Answer World Operation Event}

variable {state : State Call Answer World Operation Result}

theorem step_sound {next : State Call Answer World Operation Result}
    {action : Action Operation Choice Event}
    (steps : scheduler.step condition state action = some next) :
    Step scheduler condition state next := by
  obtain ⟨world, running⟩ := state
  cases action with
  | start operation =>
    cases running with
    | some _ => cases steps
    | none =>
      simp only [step] at steps
      split at steps
      · next allowed =>
        obtain ⟨⟨after, program⟩, starts, rfl⟩ := Option.map_eq_some_iff.mp steps
        exact .start starts allowed
      · cases steps
  | answer choice =>
    match running with
    | none => cases steps
    | some (_, .done _) => cases steps
    | some (operation, .call request next) =>
      simp only [step] at steps
      split at steps
      · next reply after responds =>
        split at steps
        · next allowed =>
          cases steps
          exact .answer responds allowed
        · cases steps
      · cases steps
  | finish =>
    match running with
    | none => cases steps
    | some (_, .call _ _) => cases steps
    | some (operation, .done result) =>
      cases steps
      exact .finish
  | crash =>
    cases running with
    | none => cases steps
    | some job =>
      simp only [step] at steps
      split at steps
      · next allowed =>
        obtain ⟨after, crashes, rfl⟩ := Option.map_eq_some_iff.mp steps
        exact .crash crashes allowed
      · cases steps
  | happen event =>
    simp only [step] at steps
    split at steps
    · next after happens =>
      split at steps
      · next allowed =>
        cases steps
        exact .happen happens allowed
      · cases steps
    · cases steps

variable {actions : List (Action Operation Choice Event)}

theorem run_sound {final : State Call Answer World Operation Result}
    (runs : scheduler.run condition state actions = some final) :
    Reaches scheduler condition state final := by
  induction actions generalizing state with
  | nil =>
    cases runs
    exact .refl
  | cons action actions ih =>
    simp only [run] at runs
    split at runs
    · next next steps => exact .head (step_sound steps) (ih runs)
    · cases runs

theorem exists_of_run
    {check : State Call Answer World Operation Result → Bool}
    (runs : (scheduler.run condition state actions).any check = true) :
    ∃ final, Reaches scheduler condition state final ∧ check final = true := by
  obtain ⟨final, ran, checked⟩ := (Option.any_eq_true _ _).mp runs
  exact ⟨final, run_sound ran, checked⟩

/-- What surrounds the program of one operation in the runs under a
condition. -/
def around
    (scheduler : Scheduler Call Answer World Operation Result Choice Event)
    (condition : Condition Call Answer World Operation Event)
    (operation : Operation) : Surroundings Call Answer World where
  answers before request reply after :=
    (∃ choice, scheduler.respond before request choice = some (reply, after)) ∧
      condition.answer operation before request reply after
  drifts before after := ∃ event, scheduler.happen (some operation) before event = some after ∧
      condition.happen (some operation) before event after

/-- What holds between operations, at the calls of each operation, and of its
result, with the proofs that the steps of a run keep it so. -/
structure Outline
    (scheduler : Scheduler Call Answer World Operation Result Choice Event)
    (condition : Condition Call Answer World Operation Event) where
  idle : World → Prop
  permits : Operation → World → Call → Prop
  post : Operation → Result → World → Prop
  starting : ∀ {world operation after program}, idle world →
    scheduler.start world operation = some (after, program) →
    condition.start world operation →
    program.Meets (scheduler.around condition operation) (permits operation) (post operation) after
  finishing : ∀ {world operation result}, post operation result world →
    idle (scheduler.finish world operation result)
  crashing : ∀ {world operation request after}, permits operation world request →
    scheduler.crash world operation = some after →
    condition.crash world operation → idle after
  crashingDone : ∀ {world operation result after}, post operation result world →
    scheduler.crash world operation = some after →
    condition.crash world operation → idle after
  happening : ∀ {world event after}, idle world → scheduler.happen none world event = some after →
    condition.happen none world event after → idle after

namespace Outline

variable (outline : Outline scheduler condition)

def Holds (state : State Call Answer World Operation Result) : Prop :=
  match state.running with
  | none => outline.idle state.world
  | some (operation, program) =>
    program.Meets (scheduler.around condition operation)
      (outline.permits operation) (outline.post operation) state.world

variable {outline} {state next : State Call Answer World Operation Result}

theorem Holds.step (holds : outline.Holds state)
    (steps : Step scheduler condition state next) : outline.Holds next := by
  cases steps with
  | start starts allowed => exact outline.starting holds starts allowed
  | answer responds allowed =>
    exact (holds _ .refl).2 _ _ ⟨⟨_, responds⟩, allowed⟩
  | finish => exact outline.finishing (holds _ .refl)
  | @crash _ _ _ program crashes allowed =>
    cases program with
    | done result =>
      exact outline.crashingDone (holds _ .refl) crashes allowed
    | call request next =>
      exact outline.crashing (holds _ .refl).1 crashes allowed
  | @happen _ _ running event happens allowed =>
    match running with
    | none => exact outline.happening holds happens allowed
    | some (operation, program) =>
      exact Program.Meets.drift holds (.single ⟨event, happens, allowed⟩)

theorem Holds.reaches
    (holds : outline.Holds state) (reaches : Reaches scheduler condition state next) :
    outline.Holds next := by
  induction reaches with
  | refl => exact holds
  | tail _ last ih => exact ih.step last

variable {operation : Operation}

theorem Holds.atCall {world : World} {request : Call}
    {next : Answer request → Program Call Answer Result}
    (holds : outline.Holds ⟨world, some (operation, .call request next)⟩) :
    outline.permits operation world request :=
  (holds world .refl).1

theorem Holds.atResult {world : World} {result : Result}
    (holds : outline.Holds ⟨world, some (operation, .done result)⟩) :
    outline.post operation result world :=
  holds world .refl

end Outline

end Scheduler
