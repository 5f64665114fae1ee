import WgQuic.Lib.Memory
import WgQuic.Lib.Tally

/-!
# Admission of sessions

Sessions are counted while they are registered, and inbound ones also while
their peer is not authenticated.  Three actors move a session out of that
state: an authenticated packet, the deadline, and the end of the session.  Every
section under the mutex of the run state is one step, and so is every access to
the flags of a session outside of it.
-/

namespace WgQuic.Bind

open List

/-! ## Sessions -/

inductive Role where
  | inbound
  | outbound
deriving DecidableEq, Repr

/-- The values 0, 1 and 2 of `authentication`. -/
inductive Authentication where
  | pending
  | authenticated
  | expired
deriving DecidableEq, Repr

structure Session where
  role : Role
  closed : Bool := false
  authentication : Authentication := .pending
  authenticatedPeers : AList (fun _ : String => Nat) := ∅

/-- Whether the session is one that strangers opened. -/
def Session.inbound (session : Session) : Bool :=
  session.role = .inbound

/-- Whether the session counts as a pending inbound one. -/
def Session.unproven (session : Session) : Bool :=
  session.role = .inbound ∧ session.authentication = .pending

/-- The admission limits of a configuration after its defaults. -/
structure Limits where
  maxSessions : Nat
  maxInboundSessions : Nat
  maxPendingInboundSessions : Nat
  maxSessions_pos : 0 < maxSessions
  maxInboundSessions_pos : 0 < maxInboundSessions
  maxPendingInboundSessions_pos : 0 < maxPendingInboundSessions

/-- A configured limit; the default stands in for one that is not positive. -/
def configuredLimit (value : Int) (default : Nat) : Nat :=
  if value ≤ 0 then default else value.toNat

theorem configuredLimit_pos {value : Int} {default : Nat} (positive : 0 < default) :
    0 < configuredLimit value default := by
  unfold configuredLimit
  split
  · exact positive
  · omega

def configuredLimits (maxSessions maxInboundSessions maxPendingInboundSessions : Int) : Limits where
  maxSessions := configuredLimit maxSessions 1024
  maxInboundSessions := configuredLimit maxInboundSessions 256
  maxPendingInboundSessions := configuredLimit maxPendingInboundSessions 32
  maxSessions_pos := configuredLimit_pos (by decide)
  maxInboundSessions_pos := configuredLimit_pos (by decide)
  maxPendingInboundSessions_pos := configuredLimit_pos (by decide)

/-- A call of `AssociateSessionPeer` that has left the mutex with a session. -/
structure Association where
  session : Nat
  publicKey : String
  endpointGeneration : Nat
  /-- The session was not closed when the call looked. -/
  checked : Bool := false
deriving DecidableEq, Repr

/-- The generations of a peer do not go back. -/
def Association.record (call : Association) (session : Session) : Session :=
  { session with
    authenticatedPeers := session.authenticatedPeers.insert call.publicKey
      (max call.endpointGeneration
        ((session.authenticatedPeers.lookup call.publicKey).getD 0)) }

structure RunState where
  limits : Limits
  closing : Bool := false
  /-- The sessions there ever were, by their identifiers. -/
  memory : Memory Session :=
    { cells := fun _ => { role := .outbound, closed := true }, next := 1 }
  /-- The identifiers of the registered sessions. -/
  sessions : List Nat := []
  inboundSessions : Int := 0
  pendingInbound : Int := 0
  associations : List Association := []

namespace RunState

def session (s : RunState) (id : Nat) : Session :=
  s.memory.cells id

def update (s : RunState) (id : Nat) (change : Session → Session) : RunState :=
  { s with memory := s.memory.modify id change }

@[simp]
theorem session_update_self {s : RunState} {id : Nat} {change : Session → Session} :
    (s.update id change).session id = change (s.session id) :=
  Memory.cells_modify_self

theorem session_update_ne {s : RunState} {id other : Nat} {change : Session → Session}
    (different : other ≠ id) : (s.update id change).session other = s.session other :=
  Memory.cells_modify_ne different

def admitSessionLocked (s : RunState) (inbound : Bool) : Bool :=
  s.sessions.length < s.limits.maxSessions ∧ (inbound = false ∨
      (s.inboundSessions < s.limits.maxInboundSessions ∧
        s.pendingInbound < s.limits.maxPendingInboundSessions))

def newSessionLocked (s : RunState) (role : Role) : RunState :=
  { s with
    memory := s.memory.allocate { role }
    sessions := s.sessions ++ [s.memory.next]
    inboundSessions :=
      if role = .inbound then s.inboundSessions + 1 else s.inboundSessions
    pendingInbound :=
      if role = .inbound then s.pendingInbound + 1 else s.pendingInbound }

/-- The section of `acceptLoop`, and that of `sessionForEndpoint` for an endpoint
that has no session. -/
def register (s : RunState) (role : Role) : Option RunState :=
  if s.closing ∨ s.admitSessionLocked (role = .inbound) = false then none
  else some (s.newSessionLocked role)

def expireAuthentication (s : RunState) (id : Nat) : Bool × RunState :=
  if (s.session id).closed = false ∧ (s.session id).authentication = .pending then
    (true, { s.update id fun session => { session with authentication := .expired } with
      pendingInbound := s.pendingInbound - 1 })
  else (false, s)

/-- The compare-and-swap of `AssociateSessionPeer`. -/
def authenticate (s : RunState) (id : Nat) : RunState :=
  if (s.session id).authentication = .pending then
    { s.update id fun session => { session with authentication := .authenticated } with
      pendingInbound :=
        if (s.session id).role = .inbound then s.pendingInbound - 1
        else s.pendingInbound }
  else s

def beginAssociation (s : RunState) (call : Association) : RunState :=
  { s with associations := s.associations ++ [call] }

/-- The section of `AssociateSessionPeer` under the mutex, for a session
identifier and a public key that are not empty.  The call goes on if it has
found a session. -/
def associate (s : RunState) (id : Nat) (publicKey : String) (endpointGeneration : Nat) :
    Bool × RunState :=
  let call : Association := { session := id, publicKey, endpointGeneration }
  if id ∉ s.sessions then (false, s)
  else if (s.session id).closed then (true, s.beginAssociation call)
  else if ((s.authenticate id).session id).authentication = .expired then
    (false, s.authenticate id)
  else (true, (s.authenticate id).beginAssociation call)

/-- The second look of `AssociateSessionPeer` at the closed flag. -/
def checkAssociation (s : RunState) (index : Nat) (call : Association) : RunState :=
  if (s.session call.session).closed then
    { s with associations := s.associations.eraseIdx index }
  else
    { s with associations := s.associations.set index { call with checked := true } }

/-- The section of `AssociateSessionPeer` under the mutex of the session. -/
def recordAssociation (s : RunState) (index : Nat) (call : Association) : RunState :=
  { s.update call.session call.record with
    associations := s.associations.eraseIdx index }

/-- The first phase of `close`. -/
def markClosed (s : RunState) (id : Nat) : RunState :=
  s.update id fun session => { session with closed := true }

/-- The second phase of `close`. -/
def removeClosed (s : RunState) (id : Nat) : RunState :=
  { s.update id fun session =>
      if session.role = .inbound then { session with authentication := .expired }
      else session with
    sessions := s.sessions.erase id
    inboundSessions :=
      if (s.session id).role = .inbound then s.inboundSessions - 1
      else s.inboundSessions
    pendingInbound :=
      if (s.session id).role = .inbound ∧ (s.session id).authentication = .pending
      then s.pendingInbound - 1 else s.pendingInbound }

/-! ## Steps -/

inductive Action where
  | register (role : Role)
  | associate (id : Nat) (publicKey : String) (endpointGeneration : Nat)
  | check (index : Nat)
  | record (index : Nat)
  | expire (id : Nat)
  | markClosed (id : Nat)
  | removeClosed (id : Nat)
  | shutdown
deriving DecidableEq, Repr

/-- What a step reports to its caller. -/
inductive Report where
  | nothing
  | registered (id : Nat)
  /-- `AssociateSessionPeer` returns. -/
  | associated (id : Nat) (result : Bool)
  | expired (id : Nat)
deriving DecidableEq, Repr

/-- A step is missing where the code cannot take it: the deadline is set for
inbound sessions only, and a session is closed once. -/
def step (s : RunState) : Action → Option (Report × RunState)
  | .register role =>
    (s.register role).map fun after => (.registered s.memory.next, after)
  | .associate id publicKey endpointGeneration =>
    let (goesOn, after) := s.associate id publicKey endpointGeneration
    some (if goesOn then .nothing else .associated id false, after)
  | .check index =>
    match s.associations[index]? with
    | none => none
    | some call =>
      if call.checked then none
      else some (if (s.session call.session).closed then
        .associated call.session false else .nothing, s.checkAssociation index call)
  | .record index =>
    match s.associations[index]? with
    | none => none
    | some call =>
      if call.checked then
        some (.associated call.session true, s.recordAssociation index call)
      else none
  | .expire id =>
    if id < s.memory.next ∧ (s.session id).role = .inbound then
      let (expired, after) := s.expireAuthentication id
      some (if expired then .expired id else .nothing, after)
    else none
  | .markClosed id =>
    if id < s.memory.next ∧ (s.session id).closed = false then
      some (.nothing, s.markClosed id)
    else none
  | .removeClosed id =>
    if id ∈ s.sessions ∧ (s.session id).closed then some (.nothing, s.removeClosed id)
    else none
  | .shutdown => some (.nothing, { s with closing := true })

/-- The states that a run from `s` goes through. -/
inductive Reaches (s : RunState) : RunState → Prop where
  | refl : Reaches s s
  | step {mid after : RunState} {action : Action} {report : Report}
      (before : Reaches s mid) (stepped : mid.step action = some (report, after)) :
      Reaches s after

/-- What a step can do. -/
inductive Moves (s : RunState) : Report → RunState → Prop where
  | register {role : Role} (admitted : s.admitSessionLocked (role = .inbound) = true) :
      Moves s (.registered s.memory.next) (s.newSessionLocked role)
  | unknown {id : Nat} : Moves s (.associated id false) s
  | revisit {id endpointGeneration : Nat} {publicKey : String} (registered : id ∈ s.sessions)
      (closed : (s.session id).closed = true) :
      Moves s .nothing
        (s.beginAssociation { session := id, publicKey, endpointGeneration })
  | refuse {id : Nat} (registered : id ∈ s.sessions) :
      Moves s (.associated id false) (s.authenticate id)
  | visit {id endpointGeneration : Nat} {publicKey : String} (registered : id ∈ s.sessions)
      (unexpired : ((s.authenticate id).session id).authentication ≠ .expired) :
      Moves s .nothing ((s.authenticate id).beginAssociation
        { session := id, publicKey, endpointGeneration })
  | abandon {index : Nat} {call : Association} : Moves s (.associated call.session false)
        { s with associations := s.associations.eraseIdx index }
  | check {index : Nat} {call : Association} (found : s.associations[index]? = some call)
      (opened : (s.session call.session).closed = false) :
      Moves s .nothing
        { s with associations := s.associations.set index { call with checked := true } }
  | record {index : Nat} {call : Association} (found : s.associations[index]? = some call)
      (checked : call.checked = true) :
      Moves s (.associated call.session true) (s.recordAssociation index call)
  | expire {id : Nat} (known : id < s.memory.next) (inbound : (s.session id).role = .inbound)
      (opened : (s.session id).closed = false)
      (pending : (s.session id).authentication = .pending) :
      Moves s (.expired id)
        { s.update id fun session => { session with authentication := .expired } with
          pendingInbound := s.pendingInbound - 1 }
  | stay : Moves s .nothing s
  | markClosed {id : Nat} : Moves s .nothing (s.markClosed id)
  | removeClosed {id : Nat} (registered : id ∈ s.sessions)
      (closed : (s.session id).closed = true) : Moves s .nothing (s.removeClosed id)
  | shutdown : Moves s .nothing { s with closing := true }

theorem moves_of_step {s after : RunState} {action : Action} {report : Report}
    (stepped : s.step action = some (report, after)) : s.Moves report after := by
  cases action with
  | register role =>
    obtain ⟨final, registers, same⟩ := Option.map_eq_some_iff.mp stepped
    cases same
    unfold RunState.register at registers
    split at registers
    · cases registers
    next admitted =>
      cases registers
      push Not at admitted
      exact .register (Bool.not_eq_false _ |>.mp admitted.2)
  | associate id publicKey endpointGeneration =>
    simp only [step, associate] at stepped
    by_cases registered : id ∈ s.sessions
    · simp only [registered, not_true_eq_false, if_false] at stepped
      by_cases closed : (s.session id).closed = true
      · simp only [closed, if_true, Option.some.injEq, Prod.mk.injEq] at stepped
        obtain ⟨rfl, rfl⟩ := stepped
        exact .revisit registered closed
      · simp only [closed, Bool.false_eq_true, if_false] at stepped
        split at stepped
        · cases stepped
          exact .refuse registered
        next unexpired =>
          cases stepped
          exact .visit registered unexpired
    · simp only [registered, not_false_eq_true, if_true, Option.some.injEq,
        Prod.mk.injEq, Bool.false_eq_true, if_false] at stepped
      obtain ⟨rfl, rfl⟩ := stepped
      exact .unknown
  | check index =>
    simp only [step] at stepped
    split at stepped
    · cases stepped
    next call found =>
    split at stepped
    · cases stepped
    unfold checkAssociation at stepped
    by_cases closed : (s.session call.session).closed = true
    · simp only [closed, if_true, Option.some.injEq, Prod.mk.injEq] at stepped
      obtain ⟨rfl, rfl⟩ := stepped
      exact .abandon
    · simp only [closed, Bool.false_eq_true, if_false, Option.some.injEq, Prod.mk.injEq] at stepped
      obtain ⟨rfl, rfl⟩ := stepped
      exact .check found (Bool.eq_false_iff.mpr closed)
  | record index =>
    simp only [step] at stepped
    split at stepped
    · cases stepped
    next call found =>
    split at stepped
    next checked =>
      cases stepped
      exact .record found checked
    · cases stepped
  | expire id =>
    simp only [step] at stepped
    split at stepped
    next timed =>
      unfold expireAuthentication at stepped
      split at stepped
      next waiting =>
        cases stepped
        exact .expire timed.1 timed.2 waiting.1 waiting.2
      · cases stepped
        exact .stay
    · cases stepped
  | markClosed id =>
    simp only [step] at stepped
    split at stepped
    · cases stepped
      exact .markClosed
    · cases stepped
  | removeClosed id =>
    simp only [step] at stepped
    split at stepped
    next ended =>
      cases stepped
      exact .removeClosed ended.1 ended.2
    · cases stepped
  | shutdown =>
    cases stepped
    exact .shutdown

/-! ## Accounting -/

/-- The counters are right, a session is registered until it is closed, and the
totals are within the limits. -/
structure Accounted (s : RunState) : Prop where
  nodup : s.sessions.Nodup
  allocated : ∀ id ∈ s.sessions, id < s.memory.next
  gone : ∀ id, id ∉ s.sessions → (s.session id).closed = true ∨ s.memory.next ≤ id
  inbound : s.inboundSessions = s.sessions.countP fun id => (s.session id).inbound
  pending : s.pendingInbound = s.sessions.countP fun id => (s.session id).unproven
  total : s.sessions.length ≤ s.limits.maxSessions
  fewInbound : s.inboundSessions ≤ s.limits.maxInboundSessions
  fewPending : s.pendingInbound ≤ s.limits.maxPendingInboundSessions

theorem accounted_start (limits : Limits) : Accounted { limits } where
  nodup := nodup_nil
  allocated := nofun
  gone _ _ := .inl rfl
  inbound := rfl
  pending := rfl
  total := Nat.zero_le _
  fewInbound := Int.natCast_nonneg _
  fewPending := Int.natCast_nonneg _

section Accounting

variable {s : RunState} {id : Nat} {role : Role}

/-- A session changes, and with it the number of pending ones. -/
theorem Accounted.change (accounted : s.Accounted) {change : Session → Session} {pending : Int}
    (role : (change (s.session id)).role = (s.session id).role)
    (closed : (s.session id).closed = true → (change (s.session id)).closed = true)
    (counted : pending + (if (s.session id).unproven then 1 else 0) =
      s.pendingInbound + if (change (s.session id)).unproven then 1 else 0)
    (listed : id ∈ s.sessions ∨ (change (s.session id)).unproven = (s.session id).unproven)
    (fewer : pending ≤ s.pendingInbound) :
    Accounted { s.update id change with pendingInbound := pending } := by
  have others : ∀ other, other ≠ id → (s.update id change).session other = s.session other :=
    fun other => session_update_ne
  have here : (s.update id change).session id = change (s.session id) := session_update_self
  refine { accounted with gone := ?_, inbound := ?_, pending := ?_, fewPending := ?_ }
  · intro other absent
    refine (accounted.gone other absent).imp_left fun shut => ?_
    change ((s.update id change).session other).closed = true
    by_cases same : other = id
    · rw [same, here]
      exact closed (same ▸ shut)
    · rw [others other same]
      exact shut
  · refine accounted.inbound.trans (congrArg Nat.cast (countP_congr fun other _ => ?_))
    change (s.session other).inbound = true ↔ ((s.update id change).session other).inbound = true
    by_cases same : other = id
    · rw [same, here, Session.inbound, Session.inbound, role]
    · rw [others other same]
  · change pending =
      (s.sessions.countP fun other => ((s.update id change).session other).unproven :)
    have before := accounted.pending
    rcases listed with registered | same
    · have changed := countP_change accounted.nodup registered fun other different =>
        congrArg Session.unproven (others other different)
      rw [here] at changed
      split_ifs at counted changed <;> omega
    · have kept : (fun other => ((s.update id change).session other).unproven) =
          fun other => (s.session other).unproven := by
        funext other
        by_cases equal : other = id
        · rw [equal, here, same]
        · rw [others other equal]
      rw [kept]
      rw [same] at counted
      omega
  · exact Int.le_trans fewer accounted.fewPending

theorem session_newSessionLocked (old : id < s.memory.next) :
    (s.newSessionLocked role).session id = s.session id :=
  Memory.cells_allocate_of_lt old

theorem session_newSessionLocked_self :
    (s.newSessionLocked role).session s.memory.next = { role } :=
  Memory.cells_allocate_self

section

variable (accounted : s.Accounted)

include accounted

theorem Accounted.add (admitted : s.admitSessionLocked (role = .inbound) = true) :
    (s.newSessionLocked role).Accounted := by
  simp only [admitSessionLocked, decide_eq_false_iff_not, decide_eq_true_eq] at admitted
  have old : ∀ id ∈ s.sessions, (s.newSessionLocked role).session id = s.session id :=
    fun id listed => session_newSessionLocked (accounted.allocated id listed)
  have counts : ∀ test : Session → Bool, ((s.newSessionLocked role).sessions.countP fun id =>
          test ((s.newSessionLocked role).session id)) =
        (s.sessions.countP fun id => test (s.session id)) + if test { role } then 1 else 0 := by
    intro test
    have same : (s.sessions.countP fun id =>
        test ((s.newSessionLocked role).session id)) =
        s.sessions.countP fun id => test (s.session id) :=
      countP_congr fun id listed => by rw [old id listed]
    have listed : (s.newSessionLocked role).sessions = s.sessions ++ [s.memory.next] := rfl
    rw [← same, listed, countP_append, countP_singleton, session_newSessionLocked_self]
  have fresh : s.memory.next ∉ s.sessions := fun listed =>
    Nat.lt_irrefl _ (accounted.allocated _ listed)
  have inboundCount := counts Session.inbound
  have pendingCount := counts Session.unproven
  refine ⟨?_, ?_, ?_, ?_, ?_, ?_, ?_, ?_⟩
  · exact nodup_append.mpr ⟨accounted.nodup, nodup_singleton _,
      fun id listed other last same => fresh (by
        rw [mem_singleton.mp last] at same
        exact same ▸ listed)⟩
  · intro id listed
    rcases mem_append.mp listed with listed | listed
    · exact Nat.lt_succ_of_lt (accounted.allocated id listed)
    · rw [mem_singleton.mp listed]
      exact Nat.lt_succ_self _
  · intro id absent
    have others : id ∉ s.sessions := fun listed =>
      absent (mem_append_left _ listed)
    have different : id ≠ s.memory.next := fun same =>
      absent (mem_append_right _ (mem_singleton.mpr same))
    rcases accounted.gone id others with shut | new
    · by_cases known : id < s.memory.next
      · rw [session_newSessionLocked known]
        exact .inl shut
      · exact .inr (Nat.lt_of_le_of_ne (Nat.le_of_not_lt known) (Ne.symm different))
    · exact .inr (Nat.lt_of_le_of_ne new (Ne.symm different))
  · rw [inboundCount]
    have before := accounted.inbound
    cases role with
    | inbound | outbound => simp [newSessionLocked, Session.inbound] at before ⊢; omega
  · rw [pendingCount]
    have before := accounted.pending
    cases role with
    | inbound | outbound => simp [newSessionLocked, Session.unproven] at before ⊢; omega
  · simp only [newSessionLocked, length_append, length_singleton]
    omega
  · have within := accounted.fewInbound
    cases role with
    | inbound =>
      have bound := admitted.2
      simp [newSessionLocked] at bound ⊢
      omega
    | outbound => exact within
  · have within := accounted.fewPending
    cases role with
    | inbound =>
      have bound := admitted.2
      simp [newSessionLocked] at bound ⊢
      omega
    | outbound => exact within

theorem Accounted.settle {value : Authentication} (registered : id ∈ s.sessions)
    (pending : (s.session id).authentication = .pending) (settles : value ≠ .pending) :
    Accounted { s.update id fun session => { session with authentication := value } with
      pendingInbound :=
        if (s.session id).role = .inbound then s.pendingInbound - 1
        else s.pendingInbound } := by
  refine accounted.change rfl (fun closed => closed) ?_ (.inl registered) (by split <;> omega)
  by_cases strange : (s.session id).role = .inbound
  · simp [Session.unproven, strange, pending, settles]
  · simp [Session.unproven, strange]

theorem Accounted.authenticate (registered : id ∈ s.sessions) : (s.authenticate id).Accounted := by
  unfold RunState.authenticate
  split
  · next pending => exact accounted.settle registered pending (by decide)
  · exact accounted

theorem Accounted.erase (registered : id ∈ s.sessions) (closed : (s.session id).closed = true)
    (proven : (s.session id).unproven = false) {inbound : Int}
    (leaves : inbound + (if (s.session id).inbound then 1 else 0) = s.inboundSessions) :
    Accounted { s with sessions := s.sessions.erase id, inboundSessions := inbound } := by
  have counts := fun test : Nat → Bool => (perm_cons_erase registered).countP_eq test
  have strangers := counts fun other => (s.session other).inbound
  have waiting := counts fun other => (s.session other).unproven
  have before := accounted.inbound
  have few := accounted.fewInbound
  rw [countP_cons] at strangers waiting
  refine { accounted with
    nodup := accounted.nodup.erase id, allocated := ?_, gone := ?_, inbound := ?_, pending := ?_,
    total := length_erase_le.trans accounted.total, fewInbound := ?_ }
  · exact fun other listed => accounted.allocated other (mem_of_mem_erase listed)
  · intro other absent
    by_cases same : other = id
    · exact .inl (same ▸ closed)
    · exact accounted.gone other fun listed =>
        absent ((accounted.nodup.mem_erase_iff).mpr ⟨same, listed⟩)
  · change inbound = ((s.sessions.erase id).countP fun other => (s.session other).inbound :)
    split_ifs at leaves strangers <;> omega
  · rw [proven] at waiting
    exact accounted.pending.trans (congrArg Nat.cast waiting)
  · change inbound ≤ (s.limits.maxInboundSessions : Int)
    split_ifs at leaves <;> omega

theorem Accounted.removeClosed (registered : id ∈ s.sessions)
    (closed : (s.session id).closed = true) : (s.removeClosed id).Accounted := by
  let settle (session : Session) : Session :=
    if session.role = .inbound then { session with authentication := .expired } else session
  have role : (settle (s.session id)).role = (s.session id).role := by
    dsimp only [settle]
    split <;> rfl
  have shut : (settle (s.session id)).closed = true := by
    dsimp only [settle]
    split <;> exact closed
  have proven : (settle (s.session id)).unproven = false := by
    dsimp only [settle]
    split <;> simp [Session.unproven, *]
  have here : (s.update id settle).session id = settle (s.session id) := session_update_self
  have settled := @Accounted.change s id accounted settle (if (s.session id).unproven
    then s.pendingInbound - 1 else s.pendingInbound) role (fun _ => shut)
    (by rw [proven]; split <;> simp) (.inl registered) (by split <;> omega)
  have erased := @Accounted.erase _ id settled registered (here ▸ shut) (here ▸ proven)
    (if (s.session id).inbound then s.inboundSessions - 1 else s.inboundSessions) (by
      change _ + (if ((s.update id settle).session id).inbound then 1 else 0) = s.inboundSessions
      rw [here, Session.inbound, Session.inbound, role]
      split <;> simp)
  simp only [Session.unproven, Session.inbound, decide_eq_true_eq] at erased
  exact erased

theorem Accounted.moves {report : Report} {after : RunState}
    (moves : s.Moves report after) : after.Accounted := by
  cases moves with
  | register admitted => exact accounted.add admitted
  | unknown | stay => exact accounted
  | revisit | abandon | check | shutdown => exact { accounted with }
  | refuse registered => exact accounted.authenticate registered
  | visit registered unexpired =>
    exact { accounted.authenticate registered with }
  | @record index call found checked =>
    have recorded : (s.update call.session call.record).Accounted :=
      accounted.change rfl (fun closed => closed) rfl (.inr rfl) (Int.le_refl _)
    exact { recorded with }
  | @expire id known inbound opened pending =>
    -- a session that is not closed is registered
    have registered : id ∈ s.sessions := by
      by_contra absent
      rcases accounted.gone id absent with shut | new
      · rw [opened] at shut
        cases shut
      · exact Nat.not_lt.mpr new known
    have unsettled : Authentication.expired ≠ .pending := nofun
    have settled := accounted.settle registered pending unsettled
    rw [if_pos inbound] at settled
    exact settled
  | @markClosed id =>
    let mark (session : Session) : Session := { session with closed := true }
    exact @Accounted.change s id accounted mark _ rfl (fun _ => rfl) rfl (.inr rfl) (Int.le_refl _)
  | removeClosed registered closed => exact accounted.removeClosed registered closed

end

end Accounting

/-! ## Expired sessions -/

/-- What a session never loses. -/
structure Ages (before after : Session) : Prop where
  closed : before.closed = true → after.closed = true
  settled : before.authentication ≠ .pending → after.authentication ≠ .pending
  expired : before.authentication = .expired → after.authentication = .expired

section Expiry

variable {s after : RunState} {report : Report}

theorem ages_refl (session : Session) : Ages session session :=
  ⟨fun closed => closed, fun settled => settled, fun expired => expired⟩

variable {id : Nat}

theorem ages_of_modify (change : Session → Session)
    (modified : after.memory = s.memory.modify id change)
    (ages : Ages (s.session id) (change (s.session id))) (other : Nat) :
    Ages (s.session other) (after.session other) := by
  have same : after.session other = (s.update id change).session other :=
    congrArg (fun memory => memory.cells other) modified
  rw [same]
  by_cases here : other = id
  · subst here
    rw [session_update_self]
    exact ages
  · rw [session_update_ne here]
    exact ages_refl _

theorem ages_authenticate (id other : Nat) :
    Ages (s.session other) ((s.authenticate id).session other) := by
  unfold RunState.authenticate
  split
  next pending =>
    refine ages_of_modify ({ · with authentication := .authenticated }) rfl ?_ other
    refine ⟨fun closed => closed, fun settled => (settled pending).elim, fun expired => ?_⟩
    rw [pending] at expired
    cases expired
  · exact ages_refl _

/-- Identifiers are handed out in order, and sessions only age. -/
theorem Moves.ages (moves : s.Moves report after) : s.memory.next ≤ after.memory.next ∧
      ∀ id < s.memory.next, Ages (s.session id) (after.session id) := by
  have idle : s.memory.next ≤ s.memory.next ∧
      ∀ id < s.memory.next, Ages (s.session id) (s.session id) :=
    ⟨Nat.le_refl _, fun _ _ => ages_refl _⟩
  have proves : ∀ id, s.memory.next ≤ (s.authenticate id).memory.next ∧ ∀ other < s.memory.next,
        Ages (s.session other) ((s.authenticate id).session other) := by
    intro id
    refine ⟨?_, fun other _ => ages_authenticate id other⟩
    unfold RunState.authenticate
    split
    · exact Nat.le_refl _
    · exact Nat.le_refl _
  cases moves with
  | @register role admitted =>
    refine ⟨Nat.le_succ _, fun id old => ?_⟩
    rw [session_newSessionLocked old]
    exact ages_refl _
  | unknown | revisit | abandon | check | stay | shutdown => exact idle
  | refuse | visit => exact proves _
  | @record index call found checked =>
    refine ⟨Nat.le_refl _, fun other _ => ages_of_modify call.record rfl ?_ other⟩
    exact ⟨fun closed => closed, fun settled => settled, fun expired => expired⟩
  | expire known inbound opened pending =>
    refine ⟨Nat.le_refl _, fun other _ =>
      ages_of_modify ({ · with authentication := .expired }) rfl ?_ other⟩
    exact ⟨fun closed => closed, fun _ => nofun, fun _ => rfl⟩
  | markClosed =>
    refine ⟨Nat.le_refl _, fun other _ =>
      ages_of_modify ({ · with closed := true }) rfl ?_ other⟩
    exact ⟨fun _ => rfl, fun settled => settled, fun expired => expired⟩
  | removeClosed registered closed =>
    refine ⟨Nat.le_refl _, fun other _ => ages_of_modify _ rfl ?_ other⟩
    split
    · exact ⟨fun closed => closed, fun _ => nofun, fun _ => rfl⟩
    · exact ages_refl _

theorem authentication_authenticate {id : Nat} :
    ((s.authenticate id).session id).authentication ≠ .pending := by
  unfold RunState.authenticate
  split
  next pending =>
    change ((s.update id fun session =>
      { session with authentication := .authenticated }).session id).authentication ≠ .pending
    rw [session_update_self]
    exact nofun
  next settled => exact settled

@[simp]
theorem associations_authenticate : (s.authenticate id).associations = s.associations := by
  unfold RunState.authenticate
  split
  · rfl
  · rfl

/-- A call under way was so before, or has looked at its session, or has just
found one that is closed or authenticated. -/
theorem Moves.calls (moves : s.Moves report after) {call : Association}
    (listed : call ∈ after.associations) :
    call ∈ s.associations ∨ (∃ old ∈ s.associations, old.session = call.session ∧
        (s.session old.session).closed = false) ∨
      (call.session ∈ s.sessions ∧ call.checked = false ∧
        ((after.session call.session).closed = true ∨
          (after.session call.session).authentication = .authenticated)) := by
  cases moves with
  | register | unknown | expire | stay | markClosed | removeClosed | shutdown => exact .inl listed
  | revisit registered closed =>
    rcases mem_append.mp listed with old | new
    · exact .inl old
    · cases mem_singleton.mp new
      exact .inr (.inr ⟨registered, rfl, .inl closed⟩)
  | refuse registered =>
    rw [associations_authenticate] at listed
    exact .inl listed
  | @visit id _ _ registered unexpired =>
    rcases mem_append.mp listed with old | new
    · rw [associations_authenticate] at old
      exact .inl old
    · cases mem_singleton.mp new
      refine .inr (.inr ⟨registered, rfl, .inr ?_⟩)
      have settled := @authentication_authenticate s id
      change ((s.authenticate id).session id).authentication = .authenticated
      revert unexpired settled
      cases ((s.authenticate id).session id).authentication with
      | pending => exact fun _ settled => (settled rfl).elim
      | authenticated => exact fun _ _ => rfl
      | expired => exact fun unexpired _ => (unexpired rfl).elim
  | abandon | record => exact .inl (mem_of_mem_eraseIdx listed)
  | @check index old found opened =>
    rcases mem_or_eq_of_mem_set listed with kept | same
    · exact .inl kept
    · subst same
      exact .inr (.inl ⟨old, mem_of_getElem? found, rfl, opened⟩)

/-- Calls under way have a session that is closed or was authenticated. -/
def Associated (s : RunState) : Prop :=
  ∀ call ∈ s.associations, call.session < s.memory.next ∧ ((s.session call.session).closed = true ∨
      (s.session call.session).authentication ≠ .pending)

theorem Associated.moves (associated : s.Associated) (accounted : s.Accounted)
    (moves : s.Moves report after) : after.Associated := by
  obtain ⟨grows, ages⟩ := moves.ages
  have kept : ∀ call ∈ s.associations, call.session < after.memory.next ∧
      ((after.session call.session).closed = true ∨
        (after.session call.session).authentication ≠ .pending) := by
    intro call listed
    obtain ⟨known, state⟩ := associated call listed
    have aged := ages call.session known
    exact ⟨Nat.lt_of_lt_of_le known grows, state.imp aged.closed aged.settled⟩
  intro call listed
  rcases moves.calls listed with old | ⟨old, before, same, -⟩ | ⟨found, -, state⟩
  · exact kept call old
  · rw [← same]
    exact kept old before
  · refine ⟨Nat.lt_of_lt_of_le (accounted.allocated _ found) grows, ?_⟩
    rcases state with closed | authenticated
    · exact .inl closed
    · right
      rw [authenticated]
      decide

theorem Moves.limits (moves : s.Moves report after) : after.limits = s.limits := by
  have proves : ∀ id, (s.authenticate id).limits = s.limits := by
    intro id
    unfold RunState.authenticate
    split
    · rfl
    · rfl
  cases moves with
  | refuse | visit => exact proves _
  | _ => rfl

theorem Reaches.invariants {limits : Limits} (reached : Reaches { limits } s) :
    s.Accounted ∧ s.Associated ∧ s.limits = limits := by
  induction reached with
  | refl => exact ⟨accounted_start limits, nofun, rfl⟩
  | step before stepped ih =>
    obtain ⟨accounted, associated, same⟩ := ih
    have moves := moves_of_step stepped
    exact ⟨accounted.moves moves, associated.moves accounted moves, moves.limits.trans same⟩

/-- The session has expired, and no call that goes on with it will succeed. -/
structure Expired (s : RunState) (id : Nat) : Prop where
  known : id < s.memory.next
  authentication : (s.session id).authentication = .expired
  calls : ∀ call ∈ s.associations, call.session = id →
    (s.session id).closed = true ∧ call.checked = false

theorem expired_of_moves (associated : s.Associated) (moves : s.Moves (.expired id) after) :
    after.Expired id := by
  cases moves with
  | expire known inbound opened pending =>
    refine ⟨known, ?_, ?_⟩
    · change ((s.update id fun session =>
        { session with authentication := .expired }).session id).authentication = .expired
      rw [session_update_self]
    · intro call listed same
      -- a call that goes on had found the session closed or authenticated
      rcases (associated call listed).2 with closed | settled
      · rw [same, opened] at closed
        cases closed
      · rw [same] at settled
        exact (settled pending).elim

theorem Expired.moves (expired : s.Expired id) (moves : s.Moves report after) :
    after.Expired id := by
  obtain ⟨grows, ages⟩ := moves.ages
  have aged := ages id expired.known
  refine ⟨Nat.lt_of_lt_of_le expired.known grows, aged.expired expired.authentication, ?_⟩
  intro call listed same
  rcases moves.calls listed with old | ⟨old, before, others, opened⟩ | ⟨-, unchecked, state⟩
  · obtain ⟨closed, unchecked⟩ := expired.calls call old same
    exact ⟨aged.closed closed, unchecked⟩
  · rw [others, same, (expired.calls old before (others.trans same)).1] at opened
    cases opened
  · rcases state with closed | authenticated
    · rw [same] at closed
      exact ⟨closed, unchecked⟩
    · rw [same, aged.expired expired.authentication] at authenticated
      cases authenticated

theorem Expired.reaches (expired : s.Expired id) (reached : s.Reaches after) :
    after.Expired id := by
  induction reached with
  | refl => exact expired
  | step _ stepped ih => exact ih.moves (moves_of_step stepped)

theorem Expired.not_associated (expired : s.Expired id) :
    ¬ s.Moves (.associated id true) after := by
  intro moves
  cases moves with
  | record found checked =>
    have unchecked := (expired.calls _ (mem_of_getElem? found) rfl).2
    rw [checked] at unchecked
    cases unchecked

/-- The counters are those of the registered sessions in every state of every
run, the registered sessions are within the limits, and a session whose deadline
has passed is never reported as associated again. -/
theorem counted_of_reaches {limits : Limits} (reached : Reaches { limits } s) :
    (s.inboundSessions = s.sessions.countP fun id => (s.session id).role = .inbound) ∧
      (s.pendingInbound = s.sessions.countP fun id =>
        (s.session id).role = .inbound ∧ (s.session id).authentication = .pending) ∧
      0 ≤ s.inboundSessions ∧ 0 ≤ s.pendingInbound ∧
      s.sessions.length ≤ limits.maxSessions ∧
      s.inboundSessions ≤ limits.maxInboundSessions ∧
      s.pendingInbound ≤ limits.maxPendingInboundSessions ∧
      ∀ id action after, s.step action = some (.expired id, after) → ∀ later, after.Reaches later →
          ∀ next final, later.step next ≠ some (.associated id true, final) := by
  obtain ⟨accounted, associated, same⟩ := reached.invariants
  have inbound := accounted.inbound
  have pending := accounted.pending
  refine ⟨inbound, pending, ?_, ?_, ?_, ?_, ?_, ?_⟩
  · rw [inbound]
    exact Int.natCast_nonneg _
  · rw [pending]
    exact Int.natCast_nonneg _
  · exact same ▸ accounted.total
  · exact same ▸ accounted.fewInbound
  · exact same ▸ accounted.fewPending
  · intro id action after stepped later reaches next final associates
    have expired := expired_of_moves associated (moves_of_step stepped)
    exact (expired.reaches reaches).not_associated (moves_of_step associates)

/-- Three strangers come, one proves who it is, and one runs out of time. -/
theorem pendingInbound_after_accept : ∃ s after : RunState,
    Reaches { limits := configuredLimits 0 0 0 } s ∧
      s.step (.expire 2) = some (.expired 2, after) ∧ s.inboundSessions = 3 ∧
      s.pendingInbound = 2 ∧ s.pendingInbound ≤ (configuredLimits 0 0 0).maxPendingInboundSessions ∧
      ∀ later, after.Reaches later →
        ∀ next final, later.step next ≠ some (.associated 2 true, final) := by
  have reached : Reaches { limits := configuredLimits 0 0 0 } _ :=
    @Reaches.step _ _ _ (.associate 1 "key" 0) _ (@Reaches.step _ _ _ (.register .inbound) _
      (@Reaches.step _ _ _ (.register .inbound) _ (@Reaches.step _ _ _ (.register .inbound) _ .refl
        rfl) rfl) rfl) rfl
  obtain ⟨-, -, -, -, -, -, few, expired⟩ := counted_of_reaches reached
  exact ⟨_, _, reached, rfl, rfl, rfl, few, expired 2 (.expire 2) _ rfl⟩

end Expiry

end RunState

end WgQuic.Bind
