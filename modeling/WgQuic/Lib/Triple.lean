import WgQuic.Lib.Scheduler

/-!
# Preconditions and postconditions

Programs that run alone: the world only moves by the calls they make.  A triple
says what holds at every call and what holds of the result, whatever the calls
answer.
-/

namespace Surroundings

variable {Call : Type} {Answer : Call → Type} {World : Type}

/-- Nothing happens between two calls. -/
def Quiet (around : Surroundings Call Answer World) : Prop :=
  ∀ before after, ¬around.drifts before after

theorem Quiet.stable {around : Surroundings Call Answer World} (quiet : around.Quiet)
    (assertion : World → Prop) : around.Stable assertion :=
  fun before after drifts _ => absurd drifts (quiet before after)

end Surroundings

namespace Program

variable {Call : Type} {Answer : Call → Type} {World α β : Type}

/-- From a world that satisfies `pre`, `always` holds at every call and `post`
of the result. -/
def Triple (around : Surroundings Call Answer World) (always : World → Prop)
    (pre : World → Prop) (program : Program Call Answer α)
    (post : α → World → Prop) : Prop :=
  ∀ world, pre world → program.Meets around (fun later _ => always later) post world

namespace Triple

variable {around : Surroundings Call Answer World} {always : World → Prop} {pre : World → Prop}

theorem pure {value : α} {post : α → World → Prop} (quiet : around.Quiet)
    (holds : ∀ world, pre world → post value world) : Triple around always pre (pure value) post :=
  fun _ before => Meets.done (quiet.stable _) before holds

variable {program : Program Call Answer α}

theorem bind
    {continuation : α → Program Call Answer β} {mid : α → World → Prop}
    {post : β → World → Prop} (first : Triple around always pre program mid)
    (rest : ∀ value, Triple around always (mid value) (continuation value) post) :
    Triple around always pre (program >>= continuation) post :=
  fun world before => Meets.bind (first world before) rest

theorem ask {request : Call} {post : Answer request → World → Prop}
    (quiet : around.Quiet) (holds : ∀ world, pre world → always world)
    (answered : ∀ world reply after, pre world →
      around.answers world request reply after → post reply after) :
    Triple around always pre (Program.ask request) post := by
  intro world before
  refine Meets.ask_bind (quiet.stable _) before holds ?_
  intro asked reply after before answers
  exact Meets.done (quiet.stable _) (answered asked reply after before answers) fun _ after => after

theorem weaken {mid : World → Prop}
    {post final : α → World → Prop} (triple : Triple around always mid program post)
    (before : ∀ world, pre world → mid world)
    (after : ∀ value world, post value world → final value world) :
    Triple around always pre program final :=
  fun world holds => (triple world (before world holds)).weaken (fun _ _ always => always) after

end Triple

/-- Whatever is answered, `post` holds of the result and the world at the end. -/
def Ensures
    (answers : World → (request : Call) → Answer request → World → Prop)
    (post : α → World → Prop) : Program Call Answer α → World → Prop
  | .done value, world => post value world
  | .call request next, world =>
    ∀ reply after, answers world request reply after → (next reply).Ensures answers post after

section Ensures

variable
  {answers : World → (request : Call) → Answer request → World → Prop}

variable {program : Program Call Answer α}

theorem Ensures.bind {continuation : α → Program Call Answer β}
    {mid : α → World → Prop} {post : β → World → Prop} {world : World}
    (first : program.Ensures answers mid world)
    (rest : ∀ value after, mid value after → (continuation value).Ensures answers post after) :
    (program >>= continuation).Ensures answers post world := by
  induction program generalizing world with
  | done value => exact rest value world first
  | call request next ih =>
    intro reply after answered
    exact ih reply (first reply after answered)

theorem Ensures.trivial {world : World} : program.Ensures answers (fun _ _ => True) world := by
  induction program generalizing world with
  | done value => exact True.intro
  | call request next ih => exact fun reply _ _ => ih reply

theorem Ensures.weaken {post final : α → World → Prop}
    {world : World} (ensures : program.Ensures answers post world)
    (implied : ∀ value after, post value after → final value after) :
    program.Ensures answers final world := by
  induction program generalizing world with
  | done value => exact implied value world ensures
  | call request next ih =>
    intro reply after answered
    exact ih reply (ensures reply after answered)

end Ensures

/-- The program comes to its end, with these answers. -/
inductive Runs
    (answers : World → (request : Call) → Answer request → World → Prop) :
    Program Call Answer α → World → α → World → Prop where
  | done {value : α} {world : World} : Runs answers (.done value) world value world
  | call {request : Call} {continuation : Answer request → Program Call Answer α}
      {reply : Answer request} {world next after : World} {value : α}
      (answered : answers world request reply next)
      (rest : Runs answers (continuation reply) next value after) :
      Runs answers (.call request continuation) world value after

variable {after world : World} {program : Program Call Answer α} {value : α}
  {post : α → World → Prop}

theorem Triple.runs {around : Surroundings Call Answer World} {always pre : World → Prop}
    (triple : Triple around always pre program post) (holds : pre world)
    (runs : Runs around.answers program world value after) : post value after := by
  have meets := triple world holds
  clear triple holds
  induction runs with
  | done => exact meets _ .refl
  | call answered _ ih => exact ih ((meets _ .refl).2 _ _ answered)

theorem Ensures.runs {answers : World → (request : Call) → Answer request → World → Prop}
    (ensures : program.Ensures answers post world)
    (runs : Runs answers program world value after) : post value after := by
  induction runs with
  | done => exact ensures
  | call answered _ ih => exact ih (ensures _ _ answered)

/-- The program with the answers that a list of choices gives. -/
def runWith {Choice : Type}
    (respond : World → (request : Call) → Choice → Option (Answer request × World)) :
    Program Call Answer α → List Choice → World → Option (α × World)
  | .done value, _, world => some (value, world)
  | .call _ _, [], _ => none
  | .call request next, choice :: choices, world =>
    match respond world request choice with
    | some (reply, after) => (next reply).runWith respond choices after
    | none => none

theorem runs_of_runWith {Choice : Type}
    {respond : World → (request : Call) → Choice → Option (Answer request × World)}
    {choices : List Choice} (ran : program.runWith respond choices world = some (value, after)) :
    Runs (fun world request reply after =>
      ∃ choice, respond world request choice = some (reply, after))
      program world value after := by
  induction program generalizing choices world with
  | done result =>
    cases ran
    exact .done
  | call request next ih =>
    cases choices with
    | nil => simp [runWith] at ran
    | cons choice choices =>
      simp only [runWith] at ran
      split at ran
      · next reply later responds =>
        exact .call ⟨choice, responds⟩ (ih reply ran)
      · cases ran

/-- The program in a world that answers every call in one way. -/
def interpret (handle : World → (request : Call) → Answer request × World) :
    Program Call Answer α → World → α × World
  | .done value, world => (value, world)
  | .call request next, world =>
    (next (handle world request).1).interpret handle (handle world request).2

variable {handle : World → (request : Call) → Answer request × World}

@[simp]
theorem interpret_pure (value : α) (world : World) :
    (pure value : Program Call Answer α).interpret handle world = (value, world) :=
  rfl

@[simp]
theorem interpret_bind (program : Program Call Answer α)
    (continuation : α → Program Call Answer β) (world : World) :
    (program >>= continuation).interpret handle world =
      (continuation (program.interpret handle world).1).interpret handle
        (program.interpret handle world).2 := by
  induction program generalizing world with
  | done value => rfl
  | call request next ih => exact ih _ _

end Program
