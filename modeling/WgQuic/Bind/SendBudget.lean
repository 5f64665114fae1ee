import Mathlib.Data.List.Basic
import Mathlib.Logic.Relation

/-!
# The send budget of a session

Any number of `Send` callers reserve bytes, the send loop gives them back.  A step of
the system is one atomic operation of one goroutine: a load, a compare-and-swap, an
addition, a channel operation or the look at the clock before one.
-/

namespace WgQuic.Bind

structure OutboundPacket where
  id : Nat
  /-- `len(preparedFrame)` -/
  length : Nat
  /-- `queuedAt` is set; it is not for priority packets. -/
  data : Bool
deriving DecidableEq, Repr

/-- What the goroutines of a session share. -/
structure SendState where
  /-- `cap(s.send)` -/
  capacity : Nat
  /-- `cap(s.priority)` -/
  priorityCapacity : Nat
  sendBytes : Int := 0
  sendBudgetBytes : Int := 0
  /-- There is a token in the channel. -/
  sendSpace : Bool := false
  send : List OutboundPacket := []
  priority : List OutboundPacket := []
  /-- `s.ctx` is done. -/
  cancelled : Bool := false
deriving DecidableEq, Repr

namespace SendState

/-- The limit that `reserveSendBytes` loads. -/
def limit (s : SendState) : Int :=
  if s.sendBudgetBytes = 0 then 64 * 1024 else s.sendBudgetBytes

def notifySendSpace (s : SendState) : SendState :=
  { s with sendSpace := true }

/-- The addition of `releaseSendBytes`. -/
def giveBack (s : SendState) (packet : OutboundPacket) : SendState :=
  if packet.data then { s with sendBytes := s.sendBytes - packet.length } else s

def enqueue (s : SendState) (packet : OutboundPacket) : SendState :=
  { s with send := s.send ++ [packet] }

end SendState

/-- What `enqueueData` returns, or what becomes of a priority packet. -/
inductive SendOutcome where
  | queued
  | dropped (reason : String)
  | closed
deriving DecidableEq, Repr

/-- Where a caller is in `enqueueData`; `waited` is the variable of that name. -/
inductive CallerPhase where
  | entry
  /-- `reserveSendBytes` -/
  | loadLimit (waited : Bool)
  | loadBytes (waited : Bool) (limit : Int)
  | swap (waited : Bool) (limit current : Int)
  /-- The reservation has failed; `admission.timeout()` comes next. -/
  | refused (waited : Bool)
  /-- The `select` on `sendSpace`. -/
  | waiting (waited : Bool)
  | notify
  /-- The first `select` on the queue. -/
  | offer
  /-- The queue was full; `admission.timeout()` comes next. -/
  | full
  /-- The second `select` on the queue. -/
  | blocked
  /-- `releaseSendBytes` -/
  | release (outcome : SendOutcome)
  | released (outcome : SendOutcome)
  /-- The `select` of a priority packet, in `Send`. -/
  | offerPriority
  | done (outcome : SendOutcome)
deriving DecidableEq, Repr

/-- Which way a step goes where the clock or a `select` decides. -/
inductive CallerChoice where
  | proceed
  | expired
  | token
  | accepted
  | cancelled
  | timeout
deriving DecidableEq, Repr

namespace CallerPhase

def next (s : SendState) (packet : OutboundPacket) :
    CallerPhase → CallerChoice → Option (SendState × CallerPhase)
  | .entry, .proceed =>
    if packet.data = false then some (s, .offerPriority)
    else if s.cancelled then some (s, .done .closed)
    else some (s, .loadLimit false)
  | .loadLimit waited, .proceed => some (s, .loadBytes waited s.limit)
  | .loadBytes waited limit, .proceed =>
    if s.sendBytes ≠ 0 ∧ s.sendBytes + packet.length > limit then some (s, .refused waited)
    else some (s, .swap waited limit s.sendBytes)
  | .swap waited limit current, .proceed =>
    if s.sendBytes = current then
      some ({ s with sendBytes := current + packet.length }, if waited then .notify else .offer)
    else some (s, .loadBytes waited limit)
  | .refused waited, .proceed => some (s, .waiting waited)
  | .refused _, .expired => some (s, .done (.dropped "send_queue_budget"))
  | .waiting _, .token =>
    if s.sendSpace then some ({ s with sendSpace := false }, .loadLimit true) else none
  | .waiting _, .timeout => some (s, .done (.dropped "send_queue_budget"))
  | .waiting _, .cancelled => if s.cancelled then some (s, .done .closed) else none
  | .notify, .proceed => some (s.notifySendSpace, .offer)
  | .offer, .proceed =>
    if s.send.length < s.capacity then some (s.enqueue packet, .done .queued)
    else some (s, .full)
  | .full, .proceed => some (s, .blocked)
  | .full, .expired => some (s, .release (.dropped "send_queue_full"))
  | .blocked, .accepted =>
    if s.send.length < s.capacity then some (s.enqueue packet, .done .queued) else none
  | .blocked, .cancelled => if s.cancelled then some (s, .release .closed) else none
  | .blocked, .timeout => some (s, .release (.dropped "send_queue_full"))
  | .release outcome, .proceed =>
    some (s.giveBack packet, if packet.data then .released outcome else .done outcome)
  | .released outcome, .proceed => some (s.notifySendSpace, .done outcome)
  | .offerPriority, .accepted =>
    if s.priority.length < s.priorityCapacity then
      some ({ s with priority := s.priority ++ [packet] }, .done .queued)
    else none
  | .offerPriority, .cancelled => if s.cancelled then some (s, .release .closed) else none
  | .offerPriority, .proceed =>
    -- the default case of the `select`
    if s.priority.length < s.priorityCapacity ∨ s.cancelled then none
    else some (s, .release (.dropped "send_queue_full"))
  | _, _ => none

end CallerPhase

structure Caller where
  packet : OutboundPacket
  phase : CallerPhase := .entry
deriving DecidableEq, Repr

inductive LoopPhase where
  | idle
  /-- `sendWGPacket` begins. -/
  | received (packet : OutboundPacket)
  /-- The budget has been raised. -/
  | raised (packet : OutboundPacket)
  /-- `releaseSendBytes` -/
  | release (packet : OutboundPacket)
  | released (packet : OutboundPacket)
  /-- The rest of `sendWGPacket`: the carrier may block. -/
  | sending
  | stopped
deriving DecidableEq, Repr

inductive LoopChoice where
  | proceed
  /-- The budget is updated first, from these estimates. -/
  | sample (bandwidth pacing : Nat) (startup : Bool)
  | stop
deriving DecidableEq, Repr

/-- The limit that `updateSendBudget` stores. -/
def sendBudgetLimit (capacity bandwidth pacing : Nat) (startup : Bool) : Option Int :=
  let rate := if bandwidth = 0 ∨ pacing ≠ 0 ∧ pacing < bandwidth then pacing else bandwidth
  if rate = 0 then none
  else
    let budget := max 6000 (rate / 400)
    let budget := if startup then max budget (64 * 1024) else budget
    some (min (capacity * 1500) budget : Nat)

namespace LoopPhase

def next (s : SendState) : LoopPhase → LoopChoice → Option (SendState × LoopPhase)
  | .idle, .proceed =>
    match s.send with
    | [] => none
    | packet :: rest => some ({ s with send := rest }, .received packet)
  | .idle, .stop => some (s, .stopped)
  | .received packet, .proceed => some (s, .release packet)
  | .received packet, .sample bandwidth pacing startup =>
    match sendBudgetLimit s.capacity bandwidth pacing startup with
    | none => some (s, .release packet)
    | some limit =>
      some ({ s with sendBudgetBytes := limit },
        if s.sendBudgetBytes < limit then .raised packet else .release packet)
  | .raised packet, .proceed => some (s.notifySendSpace, .release packet)
  | .release packet, .proceed =>
    some (s.giveBack packet, if packet.data then .released packet else .sending)
  | .released _, .proceed => some (s.notifySendSpace, .sending)
  | .sending, .proceed => some (s, .idle)
  | .sending, .stop => some (s, .stopped)
  | _, _ => none

end LoopPhase

structure SendSystem where
  shared : SendState
  callers : List Caller := []
  loop : LoopPhase := .idle
  /-- The packets whose reservation was given back. -/
  released : List OutboundPacket := []
  /-- The largest limit in force so far. -/
  peak : Int := 64 * 1024
  /-- The length of the largest data packet so far. -/
  largest : Nat := 0
deriving DecidableEq, Repr

inductive SendAction where
  /-- A `Send` caller has prepared a packet. -/
  | arrive (length : Nat) (data : Bool)
  | caller (index : Nat) (choice : CallerChoice)
  | loop (choice : LoopChoice)
  /-- The priority loop takes a packet. -/
  | prioritySent
  | close
deriving DecidableEq, Repr

/-- The packet whose reservation the next step gives back. -/
def CallerPhase.givesBack (packet : OutboundPacket) : CallerPhase → List OutboundPacket
  | .release _ => if packet.data then [packet] else []
  | _ => []

def LoopPhase.givesBack : LoopPhase → List OutboundPacket
  | .release packet => if packet.data then [packet] else []
  | _ => []

/-! ## What a step can do -/

inductive CallerMoves (s : SendState) (packet : OutboundPacket) :
    CallerPhase → SendState → CallerPhase → Prop where
  | enterPriority (priority : packet.data = false) : CallerMoves s packet .entry s .offerPriority
  | enterClosed : CallerMoves s packet .entry s (.done .closed)
  | enter (data : packet.data = true) : CallerMoves s packet .entry s (.loadLimit false)
  | load {waited : Bool} : CallerMoves s packet (.loadLimit waited) s (.loadBytes waited s.limit)
  | refuse {waited : Bool} {limit : Int} (used : s.sendBytes ≠ 0)
      (above : s.sendBytes + packet.length > limit) :
      CallerMoves s packet (.loadBytes waited limit) s (.refused waited)
  | fits {waited : Bool} {limit : Int}
      (fits : s.sendBytes = 0 ∨ s.sendBytes + packet.length ≤ limit) :
      CallerMoves s packet (.loadBytes waited limit) s (.swap waited limit s.sendBytes)
  | reserve {waited : Bool} {limit : Int} : CallerMoves s packet (.swap waited limit s.sendBytes)
        { s with sendBytes := s.sendBytes + packet.length } (if waited then .notify else .offer)
  | retry {waited : Bool} {limit current : Int} :
      CallerMoves s packet (.swap waited limit current) s (.loadBytes waited limit)
  | wait {waited : Bool} : CallerMoves s packet (.refused waited) s (.waiting waited)
  | expire {waited : Bool} :
      CallerMoves s packet (.refused waited) s (.done (.dropped "send_queue_budget"))
  | take {waited : Bool} (token : s.sendSpace = true) :
      CallerMoves s packet (.waiting waited) { s with sendSpace := false } (.loadLimit true)
  | leave {waited : Bool} {outcome : SendOutcome} :
      CallerMoves s packet (.waiting waited) s (.done outcome)
  | pass : CallerMoves s packet .notify s.notifySendSpace .offer
  | queueFirst : CallerMoves s packet .offer (s.enqueue packet) (.done .queued)
  | overflow : CallerMoves s packet .offer s .full
  | block : CallerMoves s packet .full s .blocked
  | expireFull : CallerMoves s packet .full s (.release (.dropped "send_queue_full"))
  | queue : CallerMoves s packet .blocked (s.enqueue packet) (.done .queued)
  | abandon {outcome : SendOutcome} : CallerMoves s packet .blocked s (.release outcome)
  | giveBack {outcome : SendOutcome} (data : packet.data = true) :
      CallerMoves s packet (.release outcome)
        { s with sendBytes := s.sendBytes - packet.length } (.released outcome)
  | ignore {outcome : SendOutcome} (priority : packet.data = false) :
      CallerMoves s packet (.release outcome) s (.done outcome)
  | post {outcome : SendOutcome} :
      CallerMoves s packet (.released outcome) s.notifySendSpace (.done outcome)
  | queuePriority :
      CallerMoves s packet .offerPriority { s with priority := s.priority ++ [packet] }
        (.done .queued)
  | abandonPriority {outcome : SendOutcome} :
      CallerMoves s packet .offerPriority s (.release outcome)

theorem CallerPhase.moves {s after : SendState} {packet : OutboundPacket}
    {phase later : CallerPhase} {choice : CallerChoice}
    (moved : phase.next s packet choice = some (after, later)) :
    CallerMoves s packet phase after later := by
  unfold CallerPhase.next at moved
  split at moved
  · split at moved
    · next priority =>
      cases moved
      exact .enterPriority priority
    split at moved
    · cases moved
      exact .enterClosed
    · next data _ =>
      cases moved
      exact .enter ((Bool.not_eq_false _).mp data)
  · cases moved
    exact .load
  · split at moved
    · next above =>
      cases moved
      exact .refuse above.1 above.2
    next within =>
    cases moved
    refine .fits ?_
    omega
  · split at moved
    · next same =>
      cases moved
      subst same
      exact .reserve
    · cases moved
      exact .retry
  · cases moved
    exact .wait
  · cases moved
    exact .expire
  · split at moved
    · next token =>
      cases moved
      exact .take token
    · cases moved
  · cases moved
    exact .leave
  · split at moved
    · cases moved
      exact .leave
    · cases moved
  · cases moved
    exact .pass
  · split at moved
    · cases moved
      exact .queueFirst
    · cases moved
      exact .overflow
  · cases moved
    exact .block
  · cases moved
    exact .expireFull
  · split at moved
    · cases moved
      exact .queue
    · cases moved
  · split at moved
    · cases moved
      exact .abandon
    · cases moved
  · cases moved
    exact .abandon
  · cases data : packet.data with
    | true =>
      rw [SendState.giveBack, data] at moved
      cases moved
      exact .giveBack data
    | false =>
      rw [SendState.giveBack, data] at moved
      cases moved
      exact .ignore data
  · cases moved
    exact .post
  · split at moved
    · cases moved
      exact .queuePriority
    · cases moved
  · split at moved
    · cases moved
      exact .abandonPriority
    · cases moved
  · split at moved
    · cases moved
    · cases moved
      exact .abandonPriority
  · cases moved

inductive LoopMoves (s : SendState) : LoopPhase → SendState → LoopPhase → Prop where
  | take {packet : OutboundPacket} {rest : List OutboundPacket} (queued : s.send = packet :: rest) :
      LoopMoves s .idle { s with send := rest } (.received packet)
  | stop {phase : LoopPhase} (free : phase = .idle ∨ phase = .sending) :
      LoopMoves s phase s .stopped
  | skip {packet : OutboundPacket} : LoopMoves s (.received packet) s (.release packet)
  | sample {packet : OutboundPacket} {bandwidth pacing : Nat} {startup : Bool} {limit : Int}
      (sampled : sendBudgetLimit s.capacity bandwidth pacing startup = some limit) :
      LoopMoves s (.received packet) { s with sendBudgetBytes := limit }
        (if s.sendBudgetBytes < limit then .raised packet else .release packet)
  | announce {packet : OutboundPacket} :
      LoopMoves s (.raised packet) s.notifySendSpace (.release packet)
  | giveBack {packet : OutboundPacket} (data : packet.data = true) :
      LoopMoves s (.release packet) { s with sendBytes := s.sendBytes - packet.length }
        (.released packet)
  | ignore {packet : OutboundPacket} (priority : packet.data = false) :
      LoopMoves s (.release packet) s .sending
  | post {packet : OutboundPacket} : LoopMoves s (.released packet) s.notifySendSpace .sending
  | sent : LoopMoves s .sending s .idle

theorem LoopPhase.moves {s after : SendState} {phase later : LoopPhase} {choice : LoopChoice}
    (moved : phase.next s choice = some (after, later)) : LoopMoves s phase after later := by
  unfold LoopPhase.next at moved
  split at moved
  · split at moved
    · cases moved
    · next packet rest queued =>
      cases moved
      exact .take queued
  · cases moved
    exact .stop (.inl rfl)
  · cases moved
    exact .skip
  · split at moved
    · cases moved
      exact .skip
    · next limit sampled =>
      cases moved
      exact .sample sampled
  · cases moved
    exact .announce
  · next packet =>
    cases data : packet.data with
    | true =>
      rw [SendState.giveBack, data] at moved
      cases moved
      exact .giveBack data
    | false =>
      rw [SendState.giveBack, data] at moved
      cases moved
      exact .ignore data
  · cases moved
    exact .post
  · cases moved
    exact .sent
  · cases moved
    exact .stop (.inr rfl)
  · cases moved

namespace SendSystem

def step (s : SendSystem) : SendAction → Option SendSystem
  | .arrive length data =>
    some { s with
      callers := s.callers ++ [{ packet := { id := s.callers.length, length, data } }]
      largest := if data then max s.largest length else s.largest }
  | .caller index choice =>
    match s.callers[index]? with
    | none => none
    | some caller =>
      match caller.phase.next s.shared caller.packet choice with
      | none => none
      | some (shared, phase) =>
        some { s with
          shared
          callers := s.callers.set index { caller with phase }
          released := caller.phase.givesBack caller.packet ++ s.released }
  | .loop choice =>
    match s.loop.next s.shared choice with
    | none => none
    | some (shared, loop) =>
      some { s with
        shared, loop
        released := s.loop.givesBack ++ s.released
        peak := max s.peak shared.limit }
  | .prioritySent =>
    some { s with shared := { s.shared with priority := s.shared.priority.tail } }
  | .close => some { s with shared := { s.shared with cancelled := true } }

def run (s : SendSystem) (actions : List SendAction) : Option SendSystem :=
  actions.foldlM step s

/-- A session before its first packet. -/
def start (capacity priorityCapacity : Nat) : SendSystem :=
  { shared := { capacity, priorityCapacity } }

def Reachable (s : SendSystem) : Prop :=
  ∃ capacity priorityCapacity actions, (start capacity priorityCapacity).run actions = some s

/-- Every step of the system; a caller is found between the others. -/
inductive Moves (s : SendSystem) : SendSystem → Prop where
  | arrive (length : Nat) (data : Bool) : Moves s { s with
        callers := s.callers ++ [{ packet := { id := s.callers.length, length, data } }]
        largest := if data then max s.largest length else s.largest }
  | caller {left right : List Caller} {packet : OutboundPacket} {phase later : CallerPhase}
      {shared : SendState} (found : s.callers = left ++ ⟨packet, phase⟩ :: right)
      (moves : CallerMoves s.shared packet phase shared later) :
      Moves s { s with
        shared
        callers := left ++ ⟨packet, later⟩ :: right
        released := phase.givesBack packet ++ s.released }
  | loop {shared : SendState} {phase later : LoopPhase} (found : s.loop = phase)
      (moves : LoopMoves s.shared phase shared later) :
      Moves s { s with
        shared
        loop := later
        released := phase.givesBack ++ s.released
        peak := max s.peak shared.limit }
  | prioritySent : Moves s { s with shared := { s.shared with priority := s.shared.priority.tail } }
  | close : Moves s { s with shared := { s.shared with cancelled := true } }

theorem moves_of_step {s after : SendSystem} {action : SendAction}
    (stepped : s.step action = some after) : s.Moves after := by
  cases action with
  | arrive length data =>
    cases stepped
    exact .arrive length data
  | caller index choice =>
    rw [step] at stepped
    split at stepped
    · cases stepped
    next caller found =>
    split at stepped
    · cases stepped
    next shared phase moved =>
    cases stepped
    obtain ⟨bound, rfl⟩ := List.getElem?_eq_some_iff.mp found
    have split : s.callers = s.callers.take index ++
        s.callers[index] :: s.callers.drop (index + 1) := by
      rw [List.getElem_cons_drop, List.take_append_drop]
    have set : ∀ caller, s.callers.set index caller =
        s.callers.take index ++ caller :: s.callers.drop (index + 1) :=
      fun caller => List.set_eq_take_append_cons_drop.trans (if_pos bound)
    rw [set]
    exact .caller split (CallerPhase.moves moved)
  | loop choice =>
    rw [step] at stepped
    split at stepped
    · cases stepped
    next shared phase moved =>
    cases stepped
    exact .loop rfl (LoopPhase.moves moved)
  | prioritySent =>
    cases stepped
    exact .prioritySent
  | close =>
    cases stepped
    exact .close

/-- What holds at the start and is kept by every step holds in every reachable state. -/
theorem Reachable.induct {invariant : SendSystem → Prop}
    (initial : ∀ capacity priorityCapacity, invariant (start capacity priorityCapacity))
    (step : ∀ s after, s.Moves after → invariant s → invariant after)
    {s : SendSystem} (reachable : s.Reachable) : invariant s := by
  obtain ⟨capacity, priorityCapacity, actions, ran⟩ := reachable
  have holds := initial capacity priorityCapacity
  generalize start capacity priorityCapacity = before at holds ran
  induction actions generalizing before with
  | nil =>
    cases ran
    exact holds
  | cons action rest ih =>
    obtain ⟨mid, stepped, ran⟩ := Option.bind_eq_some_iff.mp ran
    exact ih mid (step before mid (moves_of_step stepped) holds) ran

end SendSystem

end WgQuic.Bind
