import WgQuic.Reconcile.CanonicalForm
import WgQuic.Reconcile.Linearizability

/-!
# Repeated management requests

`reconcile` and `reload` build the desired configuration of a request from its
candidate and from the configuration that is current at that time.  Only then
is it compared with the request that had the same identifier before.
-/

namespace WgQuic.Quick

open WgQuic.Configuration (Config NetPrefix Peer Text)
open Reconcile Reconcile.Coordinator Canonical

inductive Operation where
  | reconcile
  | reload
deriving DecidableEq, Repr

/-- What `reconcile` reads of a management request. -/
structure ManagementRequest where
  operation : Operation
  expectedEpoch : String
  expectedGeneration : Nat
  requestID : String
  candidatePath : String := ""
  deadline : Int := 0

inductive Response where
  | failure (code message : String)
  | submitted (reply : Reply)

structure RuntimeManagement (Fingerprint : Type) where
  reconcileActive : Bool := true
  canonicalPath : String := ""
  letters : Strings.LowerCase
  /-- The text of an error of `FromConfig`. -/
  describe : Canonical.CanonicalError → String
  options : Options Fingerprint

/-- The preshared key of a peer that the candidate lists without one. -/
def inheritedKey (current : Config) (publicKey : Text) : Text :=
  ((Canonical.activePeer current.peers publicKey).map (·.presharedKey)).getD []

def validationFailed (message : String) : Response :=
  .failure "validation_failed" message

namespace RuntimeManagement

variable {Fingerprint : Type} (r : RuntimeManagement Fingerprint)

/-- The checks of `reconcile`, and the path it reads. -/
def candidatePath (request : ManagementRequest) : Except Response String :=
  if r.reconcileActive = false then
    .error (.failure "unsupported_capability"
      "peer_reconcile_v1 is not available until core, endpoint, and route transactions are active")
  else if request.expectedEpoch = "" ∨ request.expectedGeneration = 0 ∨ request.requestID = "" then
    .error (validationFailed "expected_epoch, expected_generation, and request_id are required")
  else
    match request.operation with
    | .reload =>
      if request.candidatePath ≠ "" then
        .error (validationFailed "reload does not accept candidate_path")
      else if r.canonicalPath = "" then
        .error (validationFailed "canonical configuration path is unavailable")
      else .ok r.canonicalPath
    | .reconcile =>
      if request.candidatePath = "" then
        .error (validationFailed "candidate_path is required for reconcile")
      else .ok request.candidatePath

/-- `reconcile` up to `Submit`; `current` is what the coordinator had. -/
def prepare (loadConfig : String → Except String Config) (current : Config)
    (request : ManagementRequest) : Except Response Request := do
  let path ← r.candidatePath request
  let cfg ← (loadConfig path).mapError validationFailed
  let desired ← (Canonical.canonicalize r.letters cfg current.peers).mapError fun err =>
    validationFailed (r.describe err)
  return {
    expectedEpoch := request.expectedEpoch, expectedGeneration := request.expectedGeneration
    requestID := request.requestID, deadline := request.deadline
    desired := some desired }

def reconcile [DecidableEq Fingerprint]
    (loadConfig : String → Except String Config) (current : Config) (now : Int)
    (tie : String → Nat) (c : Coordinator Fingerprint) (request : ManagementRequest) :
    Coordinator Fingerprint × Response :=
  match r.prepare loadConfig current request with
  | .error response => (c, response)
  | .ok submission =>
    match c.submit r.options now tie submission with
    | (c, .error message) => (c, validationFailed message)
    | (c, reply) => (c, .submitted reply)

end RuntimeManagement

/-- What `waitForEntry` gives a caller: `ended` is the error of its context, once that is over. -/
def waitForEntry {Fingerprint : Type} (c : Coordinator Fingerprint) (pointer : Nat)
    (ended : Option String) : Option Response :=
  match ended, c.store[pointer]? with
  | some message, _ => some (validationFailed message)
  | none, none => none
  | none, some entry => if entry.done then some (.submitted (.result entry.result)) else none

section Entries

variable {Fingerprint : Type} {options : Options Fingerprint} {now : Int} {tie : String → Nat}
  {c next : Coordinator Fingerprint} {pointer : Nat} {entry : RequestEntry Fingerprint}

variable [DecidableEq Fingerprint]

def Reaches (options : Options Fingerprint) :
    Coordinator Fingerprint → Coordinator Fingerprint → Prop :=
  Relation.ReflTransGen fun c next => ∃ action, c.step options action = some next

/-- A step that is missing leaves the coordinator as it is. -/
theorem reaches_step (action : Action) : Reaches options c ((c.step options action).getD c) := by
  cases stepped : c.step options action with
  | none => exact .refl
  | some next => exact .single ⟨action, stepped⟩

theorem Reaches.executing (reaches : Reaches options c next) (executing : Executing c) :
    Executing next := by
  induction reaches with
  | refl => exact executing
  | tail _ stepped ih =>
    obtain ⟨action, stepped⟩ := stepped
    exact (step_effect ih stepped).1

theorem Reaches.retains (reaches : Reaches options c next) (executing : Executing c)
    (found : c.store[pointer]? = some entry) : Retains pointer entry next := by
  induction reaches with
  | refl => exact ⟨entry, found, rfl, fun _ _ => rfl⟩
  | tail before stepped ih =>
    obtain ⟨action, stepped⟩ := stepped
    obtain ⟨middle, listed, printed, kept⟩ := ih
    have running := Reaches.executing before executing
    obtain ⟨later, last, same, stays⟩ := (step_effect running stepped).2.retains running listed
    refine ⟨later, last, same.trans printed, fun done completed => ?_⟩
    cases kept done completed
    exact stays done completed

/-- The result of an entry that is done is what every caller gets that waits for it. -/
theorem Reaches.waits (reaches : Reaches options c next) (executing : Executing c)
    (found : c.store[pointer]? = some entry) (done : entry.done = true)
    (completed : entry.completedAt ≠ 0) :
    waitForEntry next pointer none = some (.submitted (.result entry.result)) := by
  obtain ⟨later, listed, -, same⟩ := reaches.retains executing found
  cases same done completed
  simp [waitForEntry, listed, done]

/-- A call that adds an entry waits for it, or it has finished it and returns its result. -/
def Registers (c : Coordinator Fingerprint) (now : Int) (fingerprint : Fingerprint)
    (after : Coordinator Fingerprint) (reply : Reply) : Prop :=
  ∃ entry, after.store = c.store ++ [entry] ∧ entry.fingerprint = fingerprint ∧
    (reply = .wait c.store.length ∨
      reply = .result entry.result ∧ entry.done = true ∧ entry.completedAt = now)

omit [DecidableEq Fingerprint] in
theorem finishNew_registers (requestID : String) (fingerprint : Fingerprint) (result : Result) :
    let after := (c.register options now requestID fingerprint).1.finishLocked options now tie
      c.store.length result
    Registers c now fingerprint after (after.settled c.store.length) := by
  intro after
  have added : after.store = c.store ++ [_] := modify_last _ _ _
  refine ⟨_, added, rfl, .inr ⟨?_, rfl, rfl⟩⟩
  rw [Coordinator.settled, added, List.getElem?_concat_length]

omit [DecidableEq Fingerprint] in
theorem submitNew_registers {request : Request} {desired : Config} {fingerprint : Fingerprint} :
    (c.submitNew options now tie request desired fingerprint).1 = c ∨
      Registers c now fingerprint (c.submitNew options now tie request desired fingerprint).1
        (c.submitNew options now tie request desired fingerprint).2 := by
  unfold submitNew
  split
  · exact .inl rfl
  right
  dsimp only
  split
  · exact finishNew_registers _ _ _
  split
  · exact finishNew_registers _ _ _
  split
  · exact finishNew_registers _ _ _
  unfold Coordinator.accept
  dsimp only
  split
  · exact finishNew_registers _ _ _
  split
  · exact finishNew_registers _ _ _
  · exact ⟨_, modify_last _ _ _, rfl, .inl rfl⟩

theorem submit_registers {request : Request} :
    (c.submit options now tie request).1.store = c.store ∨
      validateRequestID request.requestID = none ∧
        ∃ fingerprint, options.requestFingerprint request = .ok fingerprint ∧
          Registers c now fingerprint (c.submit options now tie request).1
            (c.submit options now tie request).2 := by
  unfold Coordinator.submit
  split
  · exact .inl rfl
  · exact .inl rfl
  next desired valid wanted =>
  split
  · exact .inl rfl
  next fingerprint printed =>
  dsimp only
  split
  · rcases @submitNew_registers _ options now tie (c.evictLocked options now tie) request desired
      fingerprint with same | registers
    · rw [same]
      exact .inl rfl
    · exact .inr ⟨valid, fingerprint, printed, registers⟩
  · split
    · exact .inl rfl
    · split
      · exact .inl rfl
      · exact .inl rfl

end Entries

section Candidate

variable {letters : Strings.LowerCase} {current later : Config}

theorem canonicalPeers_inherited {peers : List Peer}
    (same : ∀ peer ∈ peers, peer.presharedKey = [] →
      inheritedKey later peer.publicKey = inheritedKey current peer.publicKey)
    (number : Nat) (keys : List Text) (owners : List (NetPrefix × Text)) :
    Canonical.canonicalPeers letters later.peers number keys owners peers =
      Canonical.canonicalPeers letters current.peers number keys owners peers := by
  induction peers generalizing number keys owners with
  | nil => rfl
  | cons peer rest ih =>
    obtain ⟨first, others⟩ := List.forall_mem_cons.mp same
    rw [canonicalPeers, canonicalPeers]
    cases key : canonicalKey peer.publicKey with
    | error err => rfl
    | ok publicKey =>
      obtain ⟨rfl, -⟩ := canonicalKey_ok key
      have shared : canonicalPresharedKey later.peers peer.publicKey
          peer.presharedKey = canonicalPresharedKey current.peers
          peer.publicKey peer.presharedKey := by
        unfold canonicalPresharedKey
        split
        next empty => exact congrArg Except.ok (first empty)
        · rfl
      simp only [Except.mapError, bind, Except.bind, shared, ih others]

end Candidate

section Retry

variable {Fingerprint : Type} {r : RuntimeManagement Fingerprint}
  {loadConfig : String → Except String Config} {request : ManagementRequest}
  {current later : Config}

theorem prepare_eq_ok {submission : Request} :
    r.prepare loadConfig current request = .ok submission ↔ ∃ path, r.candidatePath request =
      .ok path ∧ ∃ cfg, loadConfig path = .ok cfg ∧ ∃ desired,
        Canonical.canonicalize r.letters cfg current.peers = .ok desired ∧
          { expectedEpoch := request.expectedEpoch, expectedGeneration := request.expectedGeneration
            requestID := request.requestID, deadline := request.deadline
            desired := some desired } = submission := by
  unfold RuntimeManagement.prepare
  simp only [Fallible.bind_eq_ok, Fallible.mapError_eq_ok, Fallible.pure_eq_ok]

variable [DecidableEq Fingerprint]

theorem reaches_reconcile {c : Coordinator Fingerprint} {now : Int} {tie : String → Nat} :
    Reaches r.options c (r.reconcile loadConfig current now tie c request).1 := by
  unfold RuntimeManagement.reconcile
  split
  · exact .refl
  next submission _ =>
  split
  all_goals
    next same =>
      exact .single ⟨.submit submission now tie, congrArg some (congrArg Prod.fst same)⟩

/-- A request that was registered is joined when it is repeated with the same candidate, as long
as its entry is retained and the peers without a preshared key inherit the same one.  Whoever waits
for the entry gets the result that was recorded, at any time after that. -/
theorem retry_joins_original {initial : Config} {c after next : Coordinator Fingerprint}
    {response : Response} {now again deadline : Int} {tie order : String → Nat}
    {loadAgain : String → Except String Config}
    (reachable : Reaches r.options (.new initial) c) (clock : now ≠ 0)
    (original : r.reconcile loadConfig current now tie c request = (after, response))
    (registered : after.store.length = c.store.length + 1) (reaches : Reaches r.options after next)
    (retained : (next.evictLocked r.options again order).entries.lookup request.requestID =
      some c.store.length)
    (unchanged : ∀ path, r.candidatePath request = .ok path → loadAgain path = loadConfig path)
    (same : ∀ path cfg, r.candidatePath request = .ok path → loadConfig path = .ok cfg →
      ∀ peer ∈ cfg.peers, peer.presharedKey = [] →
        inheritedKey later peer.publicKey = inheritedKey current peer.publicKey) :
    r.reconcile loadAgain later again order next { request with deadline } =
        (next.evictLocked r.options again order, .submitted (.wait c.store.length)) ∧
      (response = .submitted (.wait c.store.length) ∨ (∃ result, response = .submitted
        (.result result)) ∧ ∀ final, Reaches r.options next final →
          waitForEntry final c.store.length none = some response) ∧
      ∀ middle entry, Reaches r.options after middle →
        middle.store[c.store.length]? = some entry → entry.done = true → entry.completedAt ≠ 0 →
          ∀ final, Reaches r.options middle final →
            waitForEntry final c.store.length none = some (.submitted (.result entry.result)) := by
  have executing : Executing after := by
    have reached := @reaches_reconcile _ r loadConfig request current _ c now tie
    rw [original] at reached
    exact reached.executing (reachable.executing (.idle rfl rfl))
  cases prepared : r.prepare loadConfig current request with
  | error refused =>
    simp only [RuntimeManagement.reconcile, prepared, Prod.mk.injEq] at original
    rw [original.1] at registered
    omega
  | ok submission =>
    have submitted : (c.submit r.options now tie submission).1 = after := by
      simp only [RuntimeManagement.reconcile, prepared] at original
      split at original <;> simp_all
    have registers := @submit_registers _ r.options now tie c _ submission
    rw [submitted] at registers
    obtain ⟨valid, fingerprint, printed, entry, added, rfl, replied⟩ :=
      registers.resolve_left fun same => by rw [same] at registered; omega
    have listed : after.store[c.store.length]? = some entry := by
      rw [added, List.getElem?_concat_length]
    refine ⟨?_, ?_, fun middle entry reached found done completed final later =>
      later.waits (reached.executing executing) found done completed⟩
    · obtain ⟨path, allowed, cfg, loaded, desired, made, rfl⟩ := prepare_eq_ok.mp prepared
      unfold canonicalize canonicalizePeers at made
      rw [← canonicalPeers_inherited (same path cfg allowed loaded)] at made
      have repeated : r.prepare loadAgain later { request with deadline } = .ok _ :=
        prepare_eq_ok.mpr
          ⟨path, allowed, cfg, (unchanged path allowed).trans loaded, desired, made, rfl⟩
      obtain ⟨kept, found, reprinted, -⟩ := reaches.retains executing listed
      rw [← reprinted] at printed
      have stored : (next.evictLocked r.options again order).store = next.store := rfl
      simp [RuntimeManagement.reconcile, repeated, Coordinator.submit, valid, retained, stored,
        found, Options.requestFingerprint, show r.options.digest (_, _, _) = _ from printed]
    · simp only [RuntimeManagement.reconcile, prepared] at original
      generalize c.submit r.options now tie submission = outcome at original replied
      obtain ⟨_, reply⟩ := outcome
      rcases replied with rfl | ⟨rfl, done, completed⟩
      · cases original
        exact .inl rfl
      · cases original
        refine .inr ⟨⟨_, rfl⟩, fun final later => ?_⟩
        exact Reaches.waits (reaches.trans later) executing listed done (completed ▸ clock)

end Retry

def keyText (symbol : Char) : Text :=
  symbol :: (List.replicate 42 'A' ++ ['='])

def candidate (peers : List Peer) : Config where
  interface := { privateKey := keyText 'A' }
  peers
  transport := Configuration.defaultTransport

/-- One file lists the peer without its preshared key, every other one does not list it. -/
def files (path : String) : Except String Config :=
  .ok (candidate (if path = "bare" then
    [{ publicKey := keyText 'A', persistentKeepalive := 25 }] else []))

def management : RuntimeManagement (String × Nat × Option Config) where
  letters := .plain
  describe _ := ""
  options := {
    epoch := "epoch", cacheEntries := 256, cacheTTL := 100
    minOperationTimeout := 1, maxOperationTimeout := 2
    digest := .ok }

abbrev Managed := Coordinator (String × Nat × Option Config)

def asks (c : Managed) (now : Int) (path : String) (expectedGeneration : Nat) :
    Managed × Response :=
  management.reconcile files c.current now (fun _ => 0) c
    { operation := .reconcile, expectedEpoch := "epoch", expectedGeneration
      requestID := path, candidatePath := path }

def commits (c : Managed) (now : Int) : Managed :=
  (c.step management.options
    (.complete 0 none { state := some .committed } now fun _ => 0)).getD c

/-- The peer is active, with a preshared key. -/
def started : Managed :=
  .new ((Canonical.canonicalize .plain (candidate
    [{ publicKey := keyText 'A', presharedKey := keyText 'E' }]) []).toOption.getD bareConfig)

/-- The file without the key is committed. -/
def kept : Managed :=
  commits (asks started 1 "bare" 1).1 2

/-- So is another one, which removes the peer. -/
def removed : Managed :=
  commits (asks kept 3 "empty" 2).1 4

def Response.code : Response → String
  | .failure code _ => code
  | .submitted (.result result) => (result.failure.map Failure.code).getD ""
  | .submitted _ => ""

/-- The same file finds no preshared key when it is named again. -/
theorem retry_conflicts_after_removal :
    Reaches management.options (asks started 1 "bare" 1).1 removed ∧
      (asks started 1 "bare" 1).1.store.length = started.store.length + 1 ∧
      (removed.evictLocked management.options 5 fun _ => 0).entries.lookup "bare" =
        some started.store.length ∧
      (asks removed 5 "bare" 1).2.code = "request_id_conflict" := by
  refine ⟨?_, by decide +kernel⟩
  exact ((reaches_step _).trans reaches_reconcile).trans (reaches_step _)

theorem retry_joins_while_kept : asks kept 5 "bare" 1 =
        (kept.evictLocked management.options 5 fun _ => 0, .submitted (.wait 0)) ∧
      ∃ result, result.state = .committed ∧
        waitForEntry removed 0 none = some (.submitted (.result result)) := by
  obtain ⟨registered, retained, inherited, recorded⟩ :
      (asks started 1 "bare" 1).1.store.length = started.store.length + 1 ∧
        (kept.evictLocked management.options 5 fun _ => 0).entries.lookup "bare" =
          some started.store.length ∧
        inheritedKey kept.current (keyText 'A') = inheritedKey started.current (keyText 'A') ∧
        (kept.store[0]?.map fun entry => (entry.done, entry.completedAt, entry.result.state)) =
          some (true, 2, .committed) := by
    decide +kernel
  obtain ⟨joins, -, results⟩ := @retry_joins_original _ management files _ started.current
    kept.current _ _ started _ kept _ 1 5 0 (fun _ => 0) (fun _ => 0) files .refl (by decide) rfl
    registered (reaches_step _) retained (fun _ _ => rfl) (by
      rintro path cfg ⟨⟩ ⟨⟩ peer listed -
      cases List.mem_singleton.mp listed
      exact inherited)
  obtain ⟨entry, found, same⟩ := Option.map_eq_some_iff.mp recorded
  simp only [Prod.mk.injEq] at same
  refine ⟨joins, entry.result, same.2.2, ?_⟩
  exact results kept entry (reaches_step _) found same.1 (by rw [same.2.1]; decide) removed
    (reaches_reconcile.trans (reaches_step _))

end WgQuic.Quick
