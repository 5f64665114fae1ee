import Mathlib.Logic.Relation

/-!
# Programs that call out to their surroundings

A program is the tree of the calls it makes: each node asks for something and
continues with whatever is answered.  Two judgements describe what a program
does.  `Yields` forgets the world and relates answers, calls and the result.
`Meets` runs the program in a world that answers its calls and may drift in
between, and keeps track of what holds at every call, so that it also speaks
about programs that stop half-way.
-/

/-- A program whose calls are answered by its surroundings. -/
inductive Program (Call : Type) (Answer : Call → Type) (α : Type) where
  | done (value : α)
  | call (request : Call) (next : Answer request → Program Call Answer α)

namespace Program

variable {Call : Type} {Answer : Call → Type} {α β : Type}

def bind : Program Call Answer α → (α → Program Call Answer β) → Program Call Answer β
  | .done value, continuation => continuation value
  | .call request next, continuation =>
    .call request fun answer => (next answer).bind continuation

instance : Monad (Program Call Answer) where
  pure := done
  bind := bind

/-- The program that makes one call and returns its answer. -/
def ask (request : Call) : Program Call Answer (Answer request) :=
  .call request .done

/-- Whatever admissible answers the program gets, every call it makes is one
of `asks` and its result satisfies `post`. -/
def Yields (admits : (request : Call) → Answer request → Prop)
    (asks : Call → Prop) (post : α → Prop) : Program Call Answer α → Prop
  | .done value => post value
  | .call request next =>
    asks request ∧ ∀ answer, admits request answer → (next answer).Yields admits asks post

section Yields

variable {admits : (request : Call) → Answer request → Prop}
  {asks : Call → Prop} {program : Program Call Answer α} {final : β → Prop}

theorem Yields.bind {post : α → Prop}
    {continuation : α → Program Call Answer β} (first : program.Yields admits asks post)
    (rest : ∀ value, post value → (continuation value).Yields admits asks final) :
    (program >>= continuation).Yields admits asks final := by
  induction program with
  | done value => exact rest value first
  | call request next ih =>
    refine ⟨first.1, ?_⟩
    intro answer admitted
    exact ih answer (first.2 answer admitted)

theorem Yields.ask_bind {request : Call} {continuation : Answer request → Program Call Answer β}
    (asked : asks request)
    (rest : ∀ answer, admits request answer → (continuation answer).Yields admits asks final) :
    (ask request >>= continuation).Yields admits asks final :=
  ⟨asked, rest⟩

theorem Yields.weaken {post final : α → Prop}
    (yields : program.Yields admits asks post) (implied : ∀ value, post value → final value) :
    program.Yields admits asks final := by
  induction program with
  | done value => exact implied value yields
  | call request next ih =>
    refine ⟨yields.1, ?_⟩
    intro answer admitted
    exact ih answer (yields.2 answer admitted)

end Yields

end Program

/-- What may happen around a running program: how its calls are answered, and
how the world moves between two calls. -/
structure Surroundings (Call : Type) (Answer : Call → Type)
    (World : Type) where
  answers : World → (request : Call) → Answer request → World → Prop
  drifts : World → World → Prop

namespace Surroundings

variable {Call : Type} {Answer : Call → Type} {World : Type}

abbrev Drift (around : Surroundings Call Answer World) : World → World → Prop :=
  Relation.ReflTransGen around.drifts

/-- An assertion that no drift can break. -/
def Stable (around : Surroundings Call Answer World) (assertion : World → Prop) : Prop :=
  ∀ before after, around.drifts before after → assertion before → assertion after

theorem Stable.drift {around : Surroundings Call Answer World} {assertion : World → Prop}
    (stable : around.Stable assertion) {before after : World} (drift : around.Drift before after)
    (holds : assertion before) : assertion after := by
  induction drift with
  | refl => exact holds
  | tail _ last ih => exact stable _ _ last ih

end Surroundings

namespace Program

variable {Call : Type} {Answer : Call → Type} {World α β : Type}

/-- Run in `around`, the program makes only calls that `permits` allows in the
world where it makes them, and `post` holds of its result and final world. -/
def Meets (around : Surroundings Call Answer World)
    (permits : World → Call → Prop) (post : α → World → Prop) :
    Program Call Answer α → World → Prop
  | .done value, world =>
    ∀ later, around.Drift world later → post value later
  | .call request next, world =>
    ∀ later, around.Drift world later → permits later request ∧
        ∀ answer after, around.answers later request answer after →
          (next answer).Meets around permits post after

section Meets

variable {around : Surroundings Call Answer World}
  {permits : World → Call → Prop} {post : α → World → Prop} {program : Program Call Answer α}
  {world : World}

theorem Meets.drift {later : World} (meets : program.Meets around permits post world)
    (drift : around.Drift world later) : program.Meets around permits post later := by
  cases program with
  | done | call =>
    intro final further
    exact meets final (drift.trans further)

variable {final : β → World → Prop}

theorem Meets.bind {continuation : α → Program Call Answer β}
    (first : program.Meets around permits post world)
    (rest : ∀ value later, post value later →
      (continuation value).Meets around permits final later) :
    (program >>= continuation).Meets around permits final world := by
  induction program generalizing world with
  | done value => exact rest value world (first world .refl)
  | call request next ih =>
    intro later drift
    obtain ⟨permitted, answered⟩ := first later drift
    refine ⟨permitted, ?_⟩
    intro answer after step
    exact ih answer (answered answer after step)

theorem Meets.weaken {permits' : World → Call → Prop} {final : α → World → Prop}
    (meets : program.Meets around permits post world)
    (calls : ∀ later request, permits later request → permits' later request)
    (implied : ∀ value later, post value later → final value later) :
    program.Meets around permits' final world := by
  induction program generalizing world with
  | done value =>
    intro later drift
    exact implied value later (meets later drift)
  | call request next ih =>
    intro later drift
    obtain ⟨permitted, answered⟩ := meets later drift
    refine ⟨calls later request permitted, ?_⟩
    intro answer after step
    exact ih answer (answered answer after step)

variable {assertion : World → Prop}

/-- One call, made in a world where a stable assertion holds. -/
theorem Meets.ask_bind {request : Call} {continuation : Answer request → Program Call Answer β}
    (stable : around.Stable assertion)
    (holds : assertion world) (permitted : ∀ later, assertion later → permits later request)
    (rest : ∀ before answer after, assertion before → around.answers before request answer after →
      (continuation answer).Meets around permits final after) :
    (ask request >>= continuation).Meets around permits final world := by
  intro later drift
  have holdsLater := stable.drift drift holds
  refine ⟨permitted later holdsLater, ?_⟩
  intro answer after step
  exact rest later answer after holdsLater step

theorem Meets.done {value : α} (stable : around.Stable assertion)
    (holds : assertion world) (implied : ∀ later, assertion later → post value later) :
    (Program.done value).Meets around permits post world := by
  intro later drift
  exact implied later (stable.drift drift holds)

end Meets

end Program
