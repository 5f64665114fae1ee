import WgQuic.Bind.SendAccounting

/-!
# Wakeups of callers that wait for send space

One token wakes one caller.  Whoever makes room posts a token, and a caller that was
woken and gets its bytes posts another one; a caller that was woken and is refused
again does not.
-/

namespace WgQuic.Bind

/-- The packet would be admitted now. -/
def SendState.admits (s : SendState) (packet : OutboundPacket) : Prop :=
  s.sendBytes = 0 ∨ s.sendBytes + packet.length ≤ s.limit

def CallerPhase.posts : CallerPhase → Bool
  | .notify | .released _ => true
  | _ => false

/-- A `select` that may have to wait. -/
def CallerPhase.mayBlock : CallerPhase → Bool
  | .waiting _ | .blocked => true
  | _ => false

/-- Running alone, the caller posts a token before it blocks. -/
inductive CallerWillPost (packet : OutboundPacket) : SendState → CallerPhase → Prop where
  | posts {s : SendState} {phase : CallerPhase} (posts : phase.posts = true) :
      CallerWillPost packet s phase
  | runs {s : SendState} {phase : CallerPhase} (free : phase.mayBlock = false)
      (enabled : ∃ choice, (phase.next s packet choice).isSome)
      (each : ∀ choice after later, phase.next s packet choice = some (after, later) →
        CallerWillPost packet after later) :
      CallerWillPost packet s phase

def LoopPhase.posts : LoopPhase → Bool
  | .raised _ | .released _ => true
  | _ => false

def LoopPhase.mayBlock : LoopPhase → Bool
  | .idle | .sending => true
  | _ => false

inductive LoopWillPost : SendState → LoopPhase → Prop where
  | posts {s : SendState} {phase : LoopPhase} (posts : phase.posts = true) : LoopWillPost s phase
  | runs {s : SendState} {phase : LoopPhase} (free : phase.mayBlock = false)
      (enabled : ∃ choice, (phase.next s choice).isSome)
      (each : ∀ choice after later, phase.next s choice = some (after, later) →
        LoopWillPost after later) :
      LoopWillPost s phase

/-- There is a token, or a goroutine at a step that will post one. -/
def SendSystem.TokenComes (s : SendSystem) : Prop :=
  s.shared.sendSpace = true ∨
    (∃ caller ∈ s.callers, CallerWillPost caller.packet s.shared caller.phase) ∨
    LoopWillPost s.shared s.loop

/-- The limit that the caller works with. -/
def CallerPhase.loaded : CallerPhase → Option Int
  | .loadBytes _ limit | .swap _ limit _ => some limit
  | _ => none

/-- Refused, and on the way to the `select` or in it. -/
def CallerPhase.parked : CallerPhase → Bool
  | .refused _ | .waiting _ => true
  | _ => false

/-- In a reservation attempt after a token. -/
def CallerPhase.retries : CallerPhase → Bool
  | .loadLimit waited | .loadBytes waited _ | .swap waited _ _ => waited
  | _ => false

/-- The limit has been raised since the caller loaded it. -/
def CallerPhase.Stale (s : SendState) (phase : CallerPhase) : Prop :=
  ∃ limit ∈ phase.loaded, limit < s.limit

def CallerPhase.Needy (s : SendState) (phase : CallerPhase) : Prop :=
  phase.parked = true ∨ phase.Stale s

def CallerPhase.Retrying (s : SendState) (phase : CallerPhase) : Prop :=
  phase.retries = true ∧ ∀ limit ∈ phase.loaded, s.limit ≤ limit

/-- What keeps a caller with a packet of this length from being forgotten. -/
inductive SendSystem.Support (s : SendSystem) (length : Nat) : Prop where
  | token (token : s.shared.sendSpace = true)
  | caller (caller : Caller) (member : caller ∈ s.callers) (posts : caller.phase.posts = true)
  | loop (posts : s.loop.posts = true)
  | retrying (caller : Caller) (member : caller ∈ s.callers)
      (retrying : caller.phase.Retrying s.shared) (shorter : caller.packet.length ≤ length)

section Retrying

variable {s : SendState} {packet : OutboundPacket}

theorem willPost_swap {limit : Int} : CallerWillPost packet s (.swap true limit s.sendBytes) := by
  refine .runs rfl ⟨.proceed, by simp [CallerPhase.next]⟩ ?_
  intro choice after later moved
  generalize current : s.sendBytes = bytes at moved
  cases CallerPhase.moves moved with
  | reserve => exact .posts rfl
  | retry =>
    cases choice with
    | proceed => simp [CallerPhase.next, current] at moved
    | _ => cases moved

theorem willPost_loadBytes {limit : Int}
    (fits : s.sendBytes = 0 ∨ s.sendBytes + packet.length ≤ limit) :
    CallerWillPost packet s (.loadBytes true limit) := by
  refine .runs rfl ⟨.proceed, ?_⟩ ?_
  · rw [CallerPhase.next]
    split <;> rfl
  · intro choice after later moved
    cases CallerPhase.moves moved with
    | refuse used above => omega
    | fits => exact willPost_swap

theorem CallerPhase.Retrying.willPost {phase : CallerPhase} (retrying : phase.Retrying s)
    (admits : s.admits packet) : CallerWillPost packet s phase := by
  obtain ⟨retries, fresh⟩ := retrying
  cases phase with
  | loadLimit waited =>
    obtain rfl : waited = true := retries
    refine .runs rfl ⟨.proceed, rfl⟩ ?_
    intro choice after later moved
    cases CallerPhase.moves moved with
    | load => exact willPost_loadBytes admits
  | loadBytes waited limit =>
    obtain rfl : waited = true := retries
    exact willPost_loadBytes (admits.imp_right fun fits => fits.trans (fresh limit rfl))
  | swap waited limit current =>
    obtain rfl : waited = true := retries
    have fits := admits.imp_right fun fits => fits.trans (fresh limit rfl)
    refine .runs rfl ⟨.proceed, ?_⟩ ?_
    · rw [CallerPhase.next]
      split <;> rfl
    · intro choice after later moved
      cases CallerPhase.moves moved with
      | reserve => exact .posts rfl
      | retry => exact willPost_loadBytes fits
  | _ => cases retries

theorem SendSystem.Support.tokenComes {s : SendSystem} {packet : OutboundPacket}
    (support : s.Support packet.length) (admits : s.shared.admits packet) : s.TokenComes := by
  cases support with
  | token token => exact .inl token
  | caller caller member posts => exact .inr (.inl ⟨caller, member, .posts posts⟩)
  | loop posts => exact .inr (.inr (.posts posts))
  | retrying caller member retrying shorter =>
    refine .inr (.inl ⟨caller, member, retrying.willPost ?_⟩)
    exact admits.imp_right fun fits => by omega

end Retrying

/-- What a step of a caller means for the others that wait. -/
inductive CallerEffect (s after : SendState) (packet : OutboundPacket)
    (phase later : CallerPhase) : Prop where
  | posting (posts : later.posts = true)
  | token (token : after.sendSpace = true)
  | taken {waited : Bool} (waits : phase = .waiting waited) (loads : later = .loadLimit true)
      (limit : after.limit = s.limit) (bytes : after.sendBytes = s.sendBytes)
  | quiet (token : after.sendSpace = s.sendSpace) (limit : after.limit = s.limit)
      (admits : ∀ other, after.admits other → s.admits other) (silent : phase.posts = false)
      (retries : phase.Retrying s → later.Retrying s ∨
        ∀ other : OutboundPacket, packet.length ≤ other.length → ¬s.admits other)
      (needy : later.Needy s → s.admits packet → phase.Needy s)

variable {packet : OutboundPacket} {phase : CallerPhase} {s : SendState}

/-- A caller that is neither retrying nor in need afterwards. -/
theorem CallerEffect.aside {after : SendState} {later : CallerPhase}
    (token : after.sendSpace = s.sendSpace) (limit : after.limit = s.limit)
    (bytes : after.sendBytes = s.sendBytes) (silent : phase.posts = false)
    (idle : phase.retries = false) (parked : later.parked = true → phase.parked = true)
    (loaded : later.loaded = none) : CallerEffect s after packet phase later := by
  refine .quiet token limit ?_ silent ?_ ?_
  · intro other admits
    rwa [SendState.admits, bytes, limit] at admits
  · intro retrying
    rw [CallerPhase.Retrying, idle] at retrying
    cases retrying.1
  · rintro (isParked | ⟨limit, member, -⟩) _
    · exact .inl (parked isParked)
    · rw [loaded] at member
      cases member

theorem CallerMoves.effect {after : SendState} {later : CallerPhase}
    (moves : CallerMoves s packet phase after later) (nonneg : 0 ≤ s.sendBytes) :
    CallerEffect s after packet phase later := by
  cases moves with
  | @load waited =>
    refine .quiet rfl rfl (fun _ admits => admits) rfl ?_ ?_
    · rintro ⟨retries, -⟩
      refine .inl ⟨retries, ?_⟩
      rintro limit ⟨rfl⟩
      exact Int.le_refl _
    · rintro (⟨⟨⟩⟩ | ⟨limit, ⟨rfl⟩, lower⟩)
      exact absurd lower (Int.lt_irrefl _)
  | @refuse waited limit used above =>
    refine .quiet rfl rfl (fun _ admits => admits) rfl ?_ ?_
    · rintro ⟨-, fresh⟩
      have fresh := fresh limit rfl
      refine .inr ?_
      rintro other shorter (none | fits)
      · exact used none
      · omega
    · rintro - (none | fits)
      · exact absurd none used
      · exact .inr ⟨limit, rfl, by omega⟩
  | fits | retry =>
    refine .quiet rfl rfl (fun _ admits => admits) rfl ?_ ?_
    · exact fun retrying => .inl retrying
    · exact fun needy _ => needy
  | @reserve waited limit =>
    cases waited with
    | true => exact .posting rfl
    | false =>
      refine .quiet rfl rfl ?_ rfl ?_ ?_
      · rintro other (none | fits)
        · refine .inl ?_
          dsimp only at none
          omega
        · refine .inr ?_
          change s.sendBytes + packet.length + other.length ≤ s.limit at fits
          omega
      · rintro ⟨⟨⟩, -⟩
      · rintro (⟨⟨⟩⟩ | ⟨limit, ⟨⟩, -⟩)
  | take token => exact .taken rfl rfl rfl rfl
  | pass | post => exact .token rfl
  | giveBack data => exact .posting rfl
  | wait => exact .aside rfl rfl rfl rfl rfl (fun _ => rfl) rfl
  | enter | enterPriority | enterClosed | expire | leave | queueFirst | overflow | block
  | expireFull | queue | abandon | ignore | queuePriority | abandonPriority =>
    exact .aside rfl rfl rfl rfl rfl nofun rfl

theorem sendBudgetLimit_eq {capacity bandwidth pacing : Nat} {startup : Bool} {limit : Int}
    (sampled : sendBudgetLimit capacity bandwidth pacing startup = some limit) :
    ∃ budget : Nat, 6000 ≤ budget ∧ limit = (min (capacity * 1500) budget : Nat) := by
  unfold sendBudgetLimit at sampled
  generalize (if bandwidth = 0 ∨ pacing ≠ 0 ∧ pacing < bandwidth then pacing else bandwidth) =
    rate at sampled
  dsimp only at sampled
  split at sampled
  · cases sampled
  · cases sampled
    refine ⟨_, ?_, rfl⟩
    split <;> omega

/-- A session that cannot queue has no budget of its own. -/
def SendState.Unbudgeted (s : SendState) : Prop :=
  s.capacity = 0 → s.sendBudgetBytes = 0

theorem limit_le_of_not_raised {bandwidth pacing : Nat} {startup : Bool} {limit : Int}
    (unbudgeted : s.Unbudgeted)
    (sampled : sendBudgetLimit s.capacity bandwidth pacing startup = some limit)
    (lower : ¬s.sendBudgetBytes < limit) :
    ({ s with sendBudgetBytes := limit } : SendState).limit ≤ s.limit := by
  obtain ⟨budget, large, rfl⟩ := sendBudgetLimit_eq sampled
  unfold SendState.limit
  dsimp only
  split
  · next none =>
    have unqueued : s.capacity = 0 := by omega
    rw [if_pos (unbudgeted unqueued)]
  · split
    · omega
    · omega

/-! ## No caller is forgotten -/

/-- In a reservation attempt, refused or waiting. -/
def CallerPhase.pending : CallerPhase → Bool
  | .loadBytes _ _ | .swap _ _ _ | .refused _ | .waiting _ => true
  | _ => false

theorem CallerPhase.Needy.pending (needy : phase.Needy s) : phase.pending = true := by
  cases phase with
  | loadBytes | swap | refused | waiting => rfl
  | _ =>
    rcases needy with parked | ⟨limit, loaded, -⟩
    · cases parked
    · cases loaded

namespace SendSystem

/-- A caller that takes the token has no longer a packet than any other caller that
might need it. -/
def Courteous (s after : SendSystem) : Prop :=
  ∀ left right packet waited, s.callers = left ++ ⟨packet, .waiting waited⟩ :: right →
    after.callers = left ++ ⟨packet, .loadLimit true⟩ :: right →
    ∀ other ∈ s.callers, other.phase.pending = true → packet.length ≤ other.packet.length

def CourteousStep (s after : SendSystem) : Prop :=
  (∃ action, s.step action = some after) ∧ s.Courteous after

/-- Reached with callers that only take a token if they are not longer. -/
def CourteouslyReachable (s : SendSystem) : Prop :=
  ∃ capacity priorityCapacity,
    Relation.ReflTransGen CourteousStep (start capacity priorityCapacity) s

structure Remembered (s : SendSystem) : Prop where
  accounts : s.Accounts
  unbudgeted : s.shared.Unbudgeted
  support : ∀ caller ∈ s.callers, caller.phase.Needy s.shared → s.shared.admits caller.packet →
    s.Support caller.packet.length

variable {s after : SendSystem} {length : Nat}

section

variable (support : s.Support length) (token : after.shared.sendSpace = s.shared.sendSpace)

include support token

theorem Support.transfer
    (callers : ∀ caller ∈ s.callers, caller.phase.posts = true → caller ∈ after.callers)
    (loop : s.loop.posts = true → after.loop.posts = true)
    (retrying : ∀ caller ∈ s.callers, caller.phase.Retrying s.shared → caller.packet.length ≤ length
      → after.Support length) : after.Support length := by
  cases support with
  | token present => exact .token (token.trans present)
  | caller caller member posts => exact .caller caller (callers caller member posts) posts
  | loop posts => exact .loop (loop posts)
  | retrying caller member retries shorter => exact retrying caller member retries shorter

theorem Support.of_lower (limit : after.shared.limit ≤ s.shared.limit)
    (callers : ∀ caller ∈ s.callers, caller ∈ after.callers)
    (loop : s.loop.posts = true → after.loop.posts = true) : after.Support length := by
  refine support.transfer token (fun caller member _ => callers caller member) loop ?_
  intro caller member retrying shorter
  refine .retrying caller (callers caller member) ⟨retrying.1, ?_⟩ shorter
  intro loaded known
  exact limit.trans (retrying.2 loaded known)

end

variable {shared : SendState}

theorem not_retrying_of_needy {phase : CallerPhase}
    (needy : phase.Needy shared) : ¬phase.Retrying shared := by
  rintro ⟨retries, fresh⟩
  rcases needy with parked | ⟨limit, loaded, lower⟩
  · cases phase with
    | refused | waiting => cases retries
    | _ => cases parked
  · exact absurd (fresh limit loaded) (Int.not_le.mpr lower)

variable {released : List OutboundPacket}

theorem Remembered.caller {left right : List Caller} {packet : OutboundPacket}
    {phase later : CallerPhase}
    (remembered : s.Remembered) (found : s.callers = left ++ ⟨packet, phase⟩ :: right)
    (moves : CallerMoves s.shared packet phase shared later)
    (courteous : ∀ waited, phase = .waiting waited → later = .loadLimit true →
      ∀ other ∈ s.callers, other.phase.pending = true → packet.length ≤ other.packet.length) :
    ∀ caller ∈ left ++ ⟨packet, later⟩ :: right, caller.phase.Needy shared →
      shared.admits caller.packet →
      ({ s with shared, callers := left ++ ⟨packet, later⟩ :: right, released } :
        SendSystem).Support caller.packet.length := by
  have member : (⟨packet, phase⟩ : Caller) ∈ s.callers := by simp [found]
  have here : (⟨packet, later⟩ : Caller) ∈ left ++ ⟨packet, later⟩ :: right := by simp
  have known : ∀ caller ∈ left ++ ⟨packet, later⟩ :: right,
      caller = ⟨packet, later⟩ ∨ caller ∈ s.callers := by
    intro caller listed
    simp only [found, List.mem_append, List.mem_cons] at listed ⊢
    tauto
  have stays : ∀ caller ∈ s.callers,
      caller = ⟨packet, phase⟩ ∨ caller ∈ left ++ ⟨packet, later⟩ :: right := by
    intro caller listed
    simp only [found, List.mem_append, List.mem_cons] at listed ⊢
    tauto
  have nonneg : 0 ≤ s.shared.sendBytes := by
    rw [remembered.accounts.bytes]
    exact totalLength_nonneg _
  intro caller listed needy admits
  cases moves.effect nonneg with
  | posting posts => exact .caller _ here posts
  | token token => exact .token token
  | @taken waited waits loads limit bytes =>
    subst waits loads
    rcases known caller listed with rfl | other
    · rcases needy with parked | ⟨_, loaded, -⟩
      · cases parked
      · cases loaded
    · exact .retrying _ here ⟨rfl, nofun⟩
        (courteous waited rfl rfl caller other (CallerPhase.Needy.pending needy))
  | quiet token limit admitted silent retries stillNeedy =>
    rw [CallerPhase.Needy, CallerPhase.Stale, limit] at needy
    have before := admitted _ admits
    have posters : ∀ other ∈ s.callers, other.phase.posts = true →
        other ∈ left ++ ⟨packet, later⟩ :: right := by
      intro other listed posts
      refine (stays other listed).resolve_left ?_
      rintro rfl
      rw [silent] at posts
      cases posts
    rcases known caller listed with rfl | other
    · have inNeed := stillNeedy needy before
      refine (remembered.support _ member inNeed before).transfer token posters
        (fun posts => posts) ?_
      intro retrier listed retrying shorter
      rcases stays retrier listed with rfl | stays
      · exact absurd retrying (not_retrying_of_needy inNeed)
      · refine .retrying retrier stays ⟨retrying.1, ?_⟩ shorter
        rw [limit]
        exact retrying.2
    · refine (remembered.support caller other needy before).transfer token posters
        (fun posts => posts) ?_
      intro retrier listed retrying shorter
      rcases stays retrier listed with rfl | stays
      · rcases retries retrying with again | refused
        · refine .retrying _ here ⟨again.1, ?_⟩ shorter
          rw [limit]
          exact again.2
        · exact absurd before (refused _ shorter)
      · refine .retrying retrier stays ⟨retrying.1, ?_⟩ shorter
        rw [limit]
        exact retrying.2

theorem Remembered.loop {phase later : LoopPhase} {peak : Int} (remembered : s.Remembered)
    (found : s.loop = phase) (moves : LoopMoves s.shared phase shared later) :
    ∀ caller ∈ s.callers, caller.phase.Needy shared → shared.admits caller.packet →
      ({ s with shared, loop := later, released, peak } : SendSystem).Support
        caller.packet.length := by
  have same : shared.sendSpace = s.shared.sendSpace → shared.limit = s.shared.limit →
      shared.sendBytes = s.shared.sendBytes → phase.posts = false →
      ∀ caller ∈ s.callers, caller.phase.Needy shared → shared.admits caller.packet →
        ({ s with shared, loop := later, released, peak } : SendSystem).Support
          caller.packet.length := by
    intro token limit bytes silent caller member needy admits
    rw [CallerPhase.Needy, CallerPhase.Stale, limit] at needy
    rw [SendState.admits, bytes, limit] at admits
    refine (remembered.support caller member needy admits).of_lower token limit.le
      (fun _ member => member) ?_
    rw [found, silent]
    exact nofun
  cases moves with
  | take | skip | ignore | sent => exact same rfl rfl rfl rfl
  | stop free => exact same rfl rfl rfl (by rcases free with rfl | rfl <;> rfl)
  | announce | post => exact fun _ _ _ _ => .token rfl
  | giveBack data => exact fun _ _ _ _ => .loop rfl
  | @sample packet bandwidth pacing startup limit sampled =>
    by_cases raised : s.shared.sendBudgetBytes < limit
    · rw [if_pos raised]
      exact fun _ _ _ _ => .loop rfl
    · have lower := limit_le_of_not_raised remembered.unbudgeted sampled raised
      intro caller member needy admits
      have needy : caller.phase.Needy s.shared :=
        needy.imp_right fun ⟨loaded, known, less⟩ => ⟨loaded, known, less.trans_le lower⟩
      have admits : s.shared.admits caller.packet := admits.imp_right fun fits => fits.trans lower
      refine (remembered.support caller member needy admits).of_lower rfl lower
        (fun _ member => member) ?_
      rw [found]
      exact nofun

theorem Moves.unbudgeted (unbudgeted : s.shared.Unbudgeted)
    (moves : s.Moves after) : after.shared.Unbudgeted := by
  cases moves with
  | caller found moves =>
    cases moves with
    | _ => exact unbudgeted
  | loop found moves =>
    cases moves with
    | sample sampled =>
      intro unqueued
      obtain ⟨budget, large, rfl⟩ := sendBudgetLimit_eq sampled
      have unqueued : s.shared.capacity = 0 := unqueued
      dsimp only
      omega
    | _ => exact unbudgeted
  | arrive | prioritySent | close => exact unbudgeted

theorem Remembered.moves (remembered : s.Remembered) (moves : s.Moves after)
    (courteous : s.Courteous after) : after.Remembered := by
  refine ⟨remembered.accounts.moves moves, Moves.unbudgeted remembered.unbudgeted moves, ?_⟩
  cases moves with
  | arrive length data =>
    intro caller member needy admits
    rcases List.mem_append.mp member with earlier | last
    · exact (remembered.support caller earlier needy admits).of_lower rfl (Int.le_refl _)
        (fun _ member => List.mem_append_left _ member) (fun posts => posts)
    · rw [List.mem_singleton.mp last] at needy
      rcases needy with parked | ⟨_, loaded, -⟩
      · cases parked
      · cases loaded
  | @caller left right packet phase later shared found moves =>
    refine remembered.caller found moves ?_
    rintro waited rfl rfl
    exact courteous left right packet waited found rfl
  | loop found moves => exact remembered.loop found moves
  | prioritySent | close =>
    intro caller member needy admits
    exact (remembered.support caller member needy admits).of_lower rfl (Int.le_refl _)
      (fun _ member => member) (fun posts => posts)

theorem remembered_start (capacity priorityCapacity : Nat) :
    (start capacity priorityCapacity).Remembered :=
  ⟨accounts_start capacity priorityCapacity, fun _ => rfl, nofun⟩

theorem CourteouslyReachable.remembered (reached : s.CourteouslyReachable) : s.Remembered := by
  obtain ⟨capacity, priorityCapacity, steps⟩ := reached
  induction steps with
  | refl => exact remembered_start capacity priorityCapacity
  | tail _ step ih =>
    obtain ⟨⟨action, stepped⟩, courteous⟩ := step
    exact ih.moves (moves_of_step stepped) courteous

/-- No wakeup is lost, as long as tokens go to the callers with the shortest packets. -/
theorem no_lost_wakeup (reached : s.CourteouslyReachable) {caller : Caller} {waited : Bool}
    (member : caller ∈ s.callers) (waits : caller.phase = .waiting waited)
    (admits : s.shared.admits caller.packet) : s.TokenComes := by
  refine (reached.remembered.support caller member (.inl ?_) admits).tokenComes admits
  rw [waits]
  rfl

theorem step_lengths {action : SendAction} (stepped : s.step action = some after)
    (equal : ∀ caller ∈ s.callers, caller.packet.length = length)
    (arrives : ∀ other data, action = .arrive other data → other = length) :
    ∀ caller ∈ after.callers, caller.packet.length = length := by
  cases action with
  | arrive other data =>
    cases stepped
    intro caller member
    rcases List.mem_append.mp member with earlier | last
    · exact equal caller earlier
    · rw [List.mem_singleton.mp last]
      exact arrives other data rfl
  | caller index choice =>
    rw [step] at stepped
    split at stepped
    · cases stepped
    next old found =>
    split at stepped
    · cases stepped
    cases stepped
    intro caller member
    rcases List.mem_or_eq_of_mem_set member with known | rfl
    · exact equal caller known
    · exact equal old (List.mem_of_getElem? found)
  | loop choice =>
    rw [step] at stepped
    split at stepped
    · cases stepped
    cases stepped
    exact equal
  | prioritySent | close =>
    cases stepped
    exact equal

/-- Packets of one length are enough for that. -/
theorem courteouslyReachable_of_uniform {capacity priorityCapacity : Nat}
    {actions : List SendAction}
    (uniform : ∀ other data, SendAction.arrive other data ∈ actions → other = length)
    (ran : (start capacity priorityCapacity).run actions = some s) : s.CourteouslyReachable := by
  refine ⟨capacity, priorityCapacity, ?_⟩
  have equal : ∀ caller ∈ (start capacity priorityCapacity).callers,
      caller.packet.length = length := nofun
  generalize start capacity priorityCapacity = before at equal ran ⊢
  induction actions generalizing before with
  | nil =>
    cases ran
    exact .refl
  | cons action rest ih =>
    obtain ⟨mid, stepped, ran⟩ := Option.bind_eq_some_iff.mp ran
    refine .head ⟨⟨action, stepped⟩, ?_⟩ (ih (fun other data listed =>
      uniform other data (List.mem_cons_of_mem _ listed)) mid ?_ ran)
    · intro left right packet waited found _ other member _
      have mine := equal ⟨packet, .waiting waited⟩ (by simp [found])
      exact (mine.trans (equal other member).symm).le
    · refine step_lengths stepped equal ?_
      rintro other data rfl
      exact uniform other data List.mem_cons_self

end SendSystem

/-! ## A lost wakeup -/

def CallerPhase.isDone : CallerPhase → Bool
  | .done _ => true
  | _ => false

theorem not_willPost (inactive : (phase.mayBlock || phase.isDone) = true) :
    ¬CallerWillPost packet s phase := by
  intro willPost
  cases phase with
  | waiting | blocked =>
    cases willPost with
    | posts posts => cases posts
    | runs free => cases free
  | done outcome =>
    cases willPost with
    | posts posts => cases posts
    | runs free enabled each =>
      obtain ⟨choice, enabled⟩ := enabled
      cases enabled
  | _ => cases inactive

theorem not_loopWillPost {phase : LoopPhase} (blocks : phase.mayBlock = true) :
    ¬LoopWillPost s phase := by
  intro willPost
  cases phase with
  | idle | sending =>
    cases willPost with
    | posts posts => cases posts
    | runs free => cases free
  | _ => cases blocks

namespace SendSystem

/-- Two packets fill the budget, a long and a short one wait; the loop gives back the first
and the long one takes the token. -/
def overtaken : List SendAction :=
  [.arrive 2000 true, .arrive 63000 true, .arrive 60000 true, .arrive 1000 true] ++
    List.replicate 5 (.caller 0 .proceed) ++ List.replicate 5 (.caller 1 .proceed) ++
    List.replicate 4 (.caller 2 .proceed) ++ List.replicate 4 (.caller 3 .proceed) ++
    List.replicate 4 (.loop .proceed) ++
    .caller 2 .token :: List.replicate 3 (.caller 2 .proceed)

/-- The short packet would be admitted and nobody will wake its caller up. -/
theorem lost_wakeup : ∃ s : SendSystem, s.Reachable ∧ ∃ caller ∈ s.callers, ∃ waited,
      caller.phase = .waiting waited ∧ s.shared.admits caller.packet ∧ ¬s.TokenComes := by
  let s := ((start 1024 128).run overtaken).get (by decide)
  have ran : (start 1024 128).run overtaken = some s := (Option.some_get _).symm
  have inactive : ∀ caller ∈ s.callers, (caller.phase.mayBlock || caller.phase.isDone) = true := by
    decide
  refine ⟨s, ⟨1024, 128, overtaken, ran⟩, ⟨⟨3, 1000, true⟩, .waiting false⟩, by decide, false, rfl,
    .inr (by decide), ?_⟩
  rintro (token | ⟨caller, member, willPost⟩ | willPost)
  · revert token
    decide
  · exact not_willPost (inactive caller member) willPost
  · exact not_loopWillPost (by decide) willPost

/-- Three packets of one length, of which the last two wait. -/
def queueing : List SendAction :=
  List.replicate 3 (.arrive 40000 true) ++ List.replicate 5 (.caller 0 .proceed) ++
    List.replicate 4 (.caller 1 .proceed) ++ List.replicate 4 (.caller 2 .proceed) ++
    List.replicate 4 (.loop .proceed) ++ [.caller 1 .token]

/-- The second has taken the token and will pass it on to the third. -/
theorem queueing_not_forgotten :
    ∃ s : SendSystem, (start 1024 128).run queueing = some s ∧ s.shared.sendSpace = false ∧
      s.TokenComes := by
  let s := ((start 1024 128).run queueing).get (by decide)
  have ran : (start 1024 128).run queueing = some s := (Option.some_get _).symm
  have uniform : ∀ other data, SendAction.arrive other data ∈ queueing → other = 40000 := by
    intro other data listed
    have both : other = 40000 ∧ data = true := by simpa [queueing] using listed
    exact both.1
  refine ⟨s, ran, by decide, ?_⟩
  refine no_lost_wakeup (courteouslyReachable_of_uniform uniform ran)
    (show (⟨⟨2, 40000, true⟩, .waiting false⟩ : Caller) ∈ s.callers by decide) rfl (.inl ?_)
  decide

end SendSystem

end WgQuic.Bind
