import WgQuic.Core.Paths
import WgQuic.Lib.Fallible
import WgQuic.Quick.Executor

/-!
# What an execution leaves active in the core

The core has one active transaction at a time.  `Execute` opens one, and what it
learns about it are the replies to its calls; a reply may be lost after the core
has done what it was asked.
-/

namespace WgQuic.Quick

open Reconcile WgQuic.Core Instance
open WgQuic.Configuration (Config)

structure ControlledCore where
  core : Instance
  /-- A call made a transaction active, and its reply was lost. -/
  stranded : Bool := false

inductive Outcome where
  | works
  /-- The call fails without effect. -/
  | fails (message : String)
  /-- The core takes the call, but its reply is lost. -/
  | lost (message : String)
  | prepared (reply : EndpointReply)

/-- How a call is answered, after what other callers did in the meantime. -/
structure Turn where
  meanwhile : List CoreCall := []
  fault : Fault := none
  outcome : Outcome := .works

/-- What others ask of the core.  Transactions are opened, committed and rolled back
by the executor alone; its cleanup loop finalizes them at any time. -/
def IsBackground : CoreCall → Bool
  | .preparePeerSet _ _ | .commitPeerSet _ _ | .rollbackPeerSet _ _ => false
  | _ => true

/-- `parseCorePeerMutations`, of prefixes that parse. -/
def coreMutation (mutation : PeerMutation) : Core.PeerMutation :=
  { operation := mutation.operation
    publicKey := String.ofList mutation.publicKey
    presharedKey := String.ofList mutation.presharedKey
    fecPolicy := String.ofList mutation.fecPolicy }

section Replies

-- The text of a core error, and the keyed hash of a request.
variable (describe : Errors → String) (digest : List PeerMutation → Nat)

/-- The request of the core that a call is, if it goes to the core. -/
def StageCall.coreCall (fault : Fault) : StageCall → Option CoreCall
  | .preparePeerSet transactionID mutations =>
    some (.preparePeerSet
      { transactionID
        mutations := mutations.map coreMutation
        fingerprint := digest mutations } fault)
  | .commitPeerSet transactionID => some (.commitPeerSet transactionID fault)
  | .rollbackPeerSet transactionID => some (.rollbackPeerSet transactionID fault)
  | .finalizePeerSet transactionID => some (.finalizePeerSet transactionID fault)
  | _ => none

def errorOf : Errors → Option String
  | [] => none
  | errs => some (describe errs)

namespace ControlledCore

def callCore (w : ControlledCore) (call : CoreCall) :
    Outcome → Option (Option String × ControlledCore)
  | .works => some (errorOf describe (w.core.answer call).1, { w with core := w.core.step call })
  | .fails message => some (some message, w)
  | .lost message =>
    let core := w.core.step call
    some (some message,
      { core
        stranded := w.stranded ||
          decide (w.core.activePeerTransaction = "" ∧ core.activePeerTransaction ≠ "") })
  | .prepared _ => none

def reply (w : ControlledCore) : Outcome → Option (Option String × ControlledCore)
  | .works => some (none, w)
  | .fails message => some (some message, w)
  | _ => none

def respond (w : ControlledCore) (request : ExecutorCall) (turn : Turn) :
    Option (request.Answer × ControlledCore) :=
  if turn.meanwhile.all IsBackground then
    let w := { w with core := turn.meanwhile.foldl Instance.step w.core }
    match request with
    | .setState _ => some ((), w)
    | .queueCleanup _ => some ((), w)
    | .preparePeerEndpoints _ _ =>
      match turn.outcome with
      | .prepared reply => some (reply, w)
      | _ => none
    | .stage call =>
      match call.coreCall digest turn.fault with
      | some call => w.callCore describe call turn.outcome
      | none => w.reply turn.outcome
  else none

def answers (w : ControlledCore) (request : ExecutorCall) (reply : request.Answer)
    (after : ControlledCore) : Prop :=
  ∃ turn, w.respond describe digest request turn = some (reply, after)

end ControlledCore

end Replies

/-! ## The transaction that is active -/

section Active

variable {i after : Instance} {transactionID : String}

/-- None is. -/
structure Vacant (i : Instance) : Prop where
  orderly : i.ledger.Orderly
  active : i.activePeerTransaction = ""

/-- At most this one is. -/
structure Slot (transactionID : String) (i : Instance) : Prop where
  orderly : i.ledger.Orderly
  active : i.activePeerTransaction = "" ∨ i.activePeerTransaction = transactionID

/-- This one is, and nobody but its executor can end it. -/
structure Taken (transactionID : String) (i : Instance) : Prop where
  orderly : i.ledger.Orderly
  active : i.activePeerTransaction = transactionID
  prepared : ∃ transaction, i.peerTransactions.lookup transactionID = some transaction ∧
    transaction.state = .prepared

theorem Vacant.slot (vacant : Vacant i) : Slot transactionID i :=
  ⟨vacant.orderly, .inl vacant.active⟩

theorem Taken.slot (taken : Taken transactionID i) : Slot transactionID i :=
  ⟨taken.orderly, .inr taken.active⟩

theorem active_eq (ledger : after.ledger = i.ledger) :
    after.activePeerTransaction = i.activePeerTransaction :=
  congrArg Ledger.activePeerTransaction ledger

/-- A call that can only end the transaction it names. -/
def Closes (transactionID : String) (i after : Instance) : Prop :=
  after.activePeerTransaction = i.activePeerTransaction ∨
    (i.activePeerTransaction = transactionID ∧ after.activePeerTransaction = "")

theorem Vacant.closes (vacant : Vacant i) (orderly : after.ledger.Orderly)
    (closes : Closes transactionID i after) : Vacant after := by
  refine ⟨orderly, ?_⟩
  rcases closes with same | ⟨_, empty⟩
  · exact same.trans vacant.active
  · exact empty

theorem Slot.closes {otherID : String} (slot : Slot transactionID i)
    (orderly : after.ledger.Orderly) (closes : Closes otherID i after) :
    Slot transactionID after := by
  refine ⟨orderly, ?_⟩
  rcases closes with same | ⟨_, empty⟩
  · rw [same]
    exact slot.active
  · exact .inl empty

variable {transaction : PeerTransaction} {errs : Errors} {fault : Fault} {device : Device}
  {err : CoreError} {mutations : List Core.PeerMutation} {call : CoreCall}

theorem Slot.vacant (slot : Slot transactionID i)
    (found : i.peerTransactions.lookup transactionID = some transaction)
    (closed : ¬transaction.Open) : Vacant i := by
  refine ⟨slot.orderly, ?_⟩
  rcases slot.active with empty | here
  · exact empty
  · by_contra named
    obtain ⟨known, lookup, isOpen⟩ := slot.orderly.active named
    rw [show i.ledger.activePeerTransaction = transactionID from here] at lookup
    cases found.symm.trans lookup
    exact closed isOpen

theorem closes_deactivate (same : after.activePeerTransaction = i.activePeerTransaction) :
    Closes transactionID i (after.deactivate transactionID) := by
  unfold Instance.deactivate
  split
  · next here => exact .inr ⟨same.symm.trans here, rfl⟩
  · exact .inl same

theorem Slot.deactivate (slot : Slot transactionID i)
    (same : after.activePeerTransaction = i.activePeerTransaction) :
    (after.deactivate transactionID).activePeerTransaction = "" := by
  unfold Instance.deactivate
  split
  · rfl
  · next other =>
    rw [same] at other ⊢
    exact slot.active.resolve_right other

theorem active_reverted {restored : PeerTransaction}
    (reverted : i.rollbackPeerFECChanges transaction = (errs, restored, after)) :
    after.activePeerTransaction = i.activePeerTransaction :=
  active_eq (rollbackPeerFECChanges_applies reverted).ledger

theorem active_releasePreparedAdditions (i : Instance) (transaction : PeerTransaction) :
    (i.releasePreparedAdditions transaction).activePeerTransaction = i.activePeerTransaction :=
  active_eq (releasePreparedAdditions_rekeys i transaction).frame.ledger

theorem active_dropPeers (operation : PeerOperation) (mutations : List Core.PeerMutation)
    (i : Instance) : (dropPeers operation mutations i).activePeerTransaction =
      i.activePeerTransaction :=
  active_eq (dropPeers_keeps operation mutations i).1

theorem commitPeerSet_active (done : i.commitPeerSet transactionID fault = (errs, after)) :
    after.activePeerTransaction = i.activePeerTransaction := by
  cases commitPeerSet_commits done with
  | refused | already => rfl
  | unapplied found state applied =>
    have same := active_eq (applyPeerFECChanges_applies applied).ledger
    exact same
  | reverted found state applied refused reverted =>
    exact (active_reverted reverted).trans (active_eq (applyPeerFECChanges_applies applied).ledger)
  | committed found state applied accepted =>
    have same := active_eq (applyPeerFECChanges_applies applied).ledger
    exact (active_eq (ledger_addPeers _ _)).trans same

theorem rollbackPeerSet_closes (done : i.rollbackPeerSet transactionID fault = (errs, after)) :
    Closes transactionID i after := by
  cases rollbackPeerSet_rollsBack done with
  | refused | already => exact .inl rfl
  | blocked found state reverted | stuck found state reverted =>
    have same := active_reverted reverted
    exact .inl same
  | withdrawn found state reverted accepted =>
    have same := active_reverted reverted
    exact closes_deactivate ((active_releasePreparedAdditions _ _).trans same)
  | undone found state reverted accepted =>
    have same := active_reverted reverted
    exact closes_deactivate ((active_dropPeers _ _ _).trans same)

theorem Slot.rollback (slot : Slot transactionID i)
    (done : i.rollbackPeerSet transactionID fault = ([], after)) : Vacant after := by
  have orderly := orderly_rollback slot.orderly done
  generalize quiet : ([] : Errors) = errs at done
  cases rollbackPeerSet_rollsBack done with
  | refused | blocked | stuck => cases quiet
  | already found state =>
    refine slot.vacant found ?_
    rw [PeerTransaction.Open, state]
    decide
  | withdrawn found state reverted accepted =>
    have same := active_reverted reverted
    exact ⟨orderly, slot.deactivate ((active_releasePreparedAdditions _ _).trans same)⟩
  | undone found state reverted accepted =>
    have same := active_reverted reverted
    exact ⟨orderly, slot.deactivate ((active_dropPeers _ _ _).trans same)⟩

theorem finalizePeerSet_closes (done : i.finalizePeerSet transactionID fault = (errs, after)) :
    Closes transactionID i after := by
  cases finalizePeerSet_finalizes done with
  | refused | already => exact .inl rfl
  | finalized found state accepted => exact closes_deactivate (active_dropPeers _ _ _)

/-- Only what others may do to it: a transaction that is not committed is not
finalized. -/
theorem Taken.finalize (taken : Taken transactionID i) {otherID : String}
    (done : i.finalizePeerSet otherID fault = (errs, after)) : Taken transactionID after := by
  have orderly := orderly_finalize taken.orderly done
  cases finalizePeerSet_finalizes done with
  | refused | already => exact taken
  | @finalized other prepared device found state accepted =>
    obtain ⟨transaction, lookup, isPrepared⟩ := taken.prepared
    have different : transactionID ≠ otherID := by
      rintro rfl
      cases found.symm.trans lookup
      rw [isPrepared] at state
      cases state
    have active : (dropPeers .remove other.mutations
        ({ i with device } : Instance)).activePeerTransaction = transactionID :=
      (active_dropPeers _ _ _).trans taken.active
    have transactions := congrArg Ledger.peerTransactions
      (dropPeers_keeps .remove other.mutations { i with device }).1
    have kept : ∀ changed, ((dropPeers .remove other.mutations
        ({ i with device } : Instance)).setTransaction otherID changed).deactivate otherID =
        (dropPeers .remove other.mutations
          ({ i with device } : Instance)).setTransaction otherID changed :=
      fun _ => if_neg fun here => different (active.symm.trans here)
    rw [kept] at orderly ⊢
    refine ⟨orderly, active, transaction, ?_, isPrepared⟩
    rw [setTransaction, AList.lookup_insert_ne different, show (dropPeers .remove other.mutations
        ({ i with device } : Instance)).peerTransactions = i.peerTransactions from transactions]
    exact lookup

variable {request : PeerSetRequest}

/-- A request opens its transaction, or the active one stays. -/
theorem preparePeerSet_active (orderly : i.ledger.Orderly)
    (done : i.preparePeerSet request fault = (errs, after)) :
    after.activePeerTransaction = i.activePeerTransaction ∨
      (errs = [] ∧ i.activePeerTransaction = "" ∧ Taken request.transactionID after) := by
  have later := orderly_prepare orderly done
  cases preparePeerSet_prepares done with
  | refused | repeated => exact .inl rfl
  | failed planned =>
    exact .inl (active_eq (failed_rekeys planned).frame.ledger)
  | @opened prepared transaction _ valid fresh idle accepted planned =>
    have state : transaction.state = .prepared := (preparePeerTransportKeys_plans planned).state
    refine .inr ⟨rfl, idle, later, rfl, transaction, ?_, state⟩
    exact (trimLoop_forgets _ _).2 _ _ (AList.lookup_insert _) (.inl state)

theorem Vacant.prepare (vacant : Vacant i) (done : i.preparePeerSet request fault = (errs, after)) :
    Vacant after ∨ (errs = [] ∧ Taken request.transactionID after) := by
  rcases preparePeerSet_active vacant.orderly done with same | ⟨ok, _, taken⟩
  · exact .inl ⟨orderly_prepare vacant.orderly done, same.trans vacant.active⟩
  · exact .inr ⟨ok, taken⟩

theorem convertMutations_error (failed : Device.convertMutations mutations = .error err) :
    err ≠ .anotherActive := by
  induction mutations with
  | nil => cases failed
  | cons mutation rest ih =>
    unfold Device.convertMutations at failed
    split at failed
    · cases failed
      nofun
    · next later =>
      cases failed
      exact ih later
    · cases failed

theorem checkMutation_error {mutation : PeerOperation × NoisePublicKey}
    (failed : device.checkMutation mutation = .error err) : err ≠ .anotherActive := by
  unfold Device.checkMutation at failed
  split at failed
  · split at failed <;> cases failed
    nofun
  · split at failed <;> cases failed
    nofun
  · split at failed <;> cases failed
    nofun
  · cases failed
    nofun

theorem devicePreparePeerSet_error (failed : device.preparePeerSet mutations fault = .error err) :
    err ≠ .anotherActive := by
  unfold Device.preparePeerSet at failed
  split at failed
  · next converted =>
    cases failed
    exact convertMutations_error converted
  dsimp only at failed
  split at failed
  · cases failed
    nofun
  split at failed
  · cases failed
    nofun
  split at failed
  · cases failed
    nofun
  · next checked =>
    cases failed
    obtain ⟨_, checked⟩ := Fallible.mapM_error checked
    exact checkMutation_error checked
  · cases failed

theorem acquireTransportKeys_errors :
    CoreError.anotherActive ∉ (acquireTransportKeys mutations transaction i).1 := by
  induction mutations generalizing transaction i with
  | nil => exact List.not_mem_nil
  | cons mutation rest ih =>
    unfold acquireTransportKeys
    split
    · split
      · exact ih
      · simp
      · simp
    · exact ih

theorem preparePeerTransportKeys_errors (i : Instance) (transaction : PeerTransaction) :
    CoreError.anotherActive ∉ (i.preparePeerTransportKeys transaction).1 := by
  unfold preparePeerTransportKeys
  split
  · next planned =>
    obtain ⟨_, _, planned⟩ := Fallible.foldlM_error planned
    unfold planMutation at planned
    dsimp only at planned
    split at planned
    · cases planned
      simp
    split at planned
    · cases planned
    · split at planned <;> cases planned
    · cases planned
  split
  · exact acquireTransportKeys_errors
  · exact List.not_mem_nil

/-- A request is not refused for the sake of another transaction. -/
theorem Vacant.not_anotherActive (vacant : Vacant i) (request : PeerSetRequest)
    (fault : Fault) : CoreError.anotherActive ∉ (i.preparePeerSet request fault).1 := by
  unfold Instance.preparePeerSet
  split
  · simp
  split
  · simp
  split
  · split <;> simp
  split
  · next named => exact absurd vacant.active named
  split
  · simp
  · next failed => simpa using (devicePreparePeerSet_error failed).symm
  next prepared _ _ =>
  have errors := preparePeerTransportKeys_errors i (request.transaction prepared)
  split
  · next planned =>
    rw [planned] at errors
    exact errors
  · exact List.not_mem_nil

theorem background_cases (background : IsBackground call = true) : (i.step call).ledger = i.ledger ∨
      ∃ otherID fault, i.step call = (i.finalizePeerSet otherID fault).2 := by
  rcases step_cases i call with same | ⟨request, fault, rfl⟩ | ⟨otherID, fault, rfl⟩ |
    ⟨otherID, fault, rfl⟩ | ⟨otherID, fault, rfl⟩
  · exact .inl same.ledger
  · cases background
  · cases background
  · cases background
  · exact .inr ⟨otherID, fault, rfl⟩

theorem background_closes (background : IsBackground call = true) :
    ∃ otherID, Closes otherID i (i.step call) := by
  rcases background_cases background with same | ⟨otherID, fault, same⟩
  · exact ⟨"", .inl (active_eq same)⟩
  · rw [same]
    exact ⟨otherID, finalizePeerSet_closes rfl⟩

theorem Taken.background (taken : Taken transactionID i) (background : IsBackground call = true) :
    Taken transactionID (i.step call) := by
  have orderly := orderly_step taken.orderly call
  rcases background_cases background with same | ⟨otherID, fault, same⟩
  · have transactions : (i.step call).peerTransactions = i.peerTransactions :=
      congrArg Ledger.peerTransactions same
    refine ⟨orderly, (active_eq same).trans taken.active, ?_⟩
    rw [transactions]
    exact taken.prepared
  · rw [same]
    exact taken.finalize rfl

/-- What a call of somebody else keeps, any number of them keep. -/
theorem holds_meanwhile {holds : Instance → Prop}
    (keeps : ∀ i call, IsBackground call = true → holds i → holds (i.step call))
    {calls : List CoreCall} (background : calls.all IsBackground = true) (start : holds i) :
    holds (calls.foldl Instance.step i) := by
  induction calls generalizing i with
  | nil => exact start
  | cons call rest ih =>
    rw [List.all_cons, Bool.and_eq_true] at background
    exact ih background.2 (keeps i call background.1 start)

theorem Vacant.background (i : Instance) (call : CoreCall)
    (background : IsBackground call = true) (vacant : Vacant i) : Vacant (i.step call) := by
  obtain ⟨_, closes⟩ := background_closes background
  exact vacant.closes (orderly_step vacant.orderly call) closes

theorem Slot.background (i : Instance) (call : CoreCall) (background : IsBackground call = true)
    (slot : Slot transactionID i) : Slot transactionID (i.step call) := by
  obtain ⟨_, closes⟩ := background_closes background
  exact slot.closes (orderly_step slot.orderly call) closes

end Active

/-! ## What a reply tells -/

namespace ControlledCore

variable {describe : Errors → String} {digest : List PeerMutation → Nat}
  {w after : ControlledCore} {transactionID : String}

/-- No transaction is active, and none was stranded. -/
def Calm (w : ControlledCore) : Prop :=
  Vacant w.core ∧ w.stranded = false

def Busy (transactionID : String) (w : ControlledCore) : Prop :=
  Slot transactionID w.core ∧ w.stranded = false

/-- The transaction is active, and its executor has not been told. -/
def Stuck (transactionID : String) (w : ControlledCore) : Prop :=
  Taken transactionID w.core ∧ w.stranded = true

/-- Others have called the core. -/
def Passes (w after : ControlledCore) : Prop :=
  ∃ calls : List CoreCall, calls.all IsBackground = true ∧
    after = { w with core := calls.foldl Instance.step w.core }

theorem Calm.passes (calm : w.Calm) (passes : w.Passes after) : after.Calm := by
  obtain ⟨calls, background, rfl⟩ := passes
  exact ⟨holds_meanwhile Vacant.background background calm.1, calm.2⟩

theorem Busy.passes (busy : w.Busy transactionID) (passes : w.Passes after) :
    after.Busy transactionID := by
  obtain ⟨calls, background, rfl⟩ := passes
  exact ⟨holds_meanwhile Slot.background background busy.1, busy.2⟩

theorem Stuck.passes (stuck : w.Stuck transactionID) (passes : w.Passes after) :
    after.Stuck transactionID := by
  obtain ⟨calls, background, rfl⟩ := passes
  refine ⟨holds_meanwhile ?_ background stuck.1, stuck.2⟩
  exact fun _ _ background taken => taken.background background

/-- How a call of the core ends. -/
inductive Replied (describe : Errors → String) (w : ControlledCore) (call : CoreCall) :
    Option String → ControlledCore → Prop where
  | answered : Replied describe w call (errorOf describe (w.core.answer call).1)
      { w with core := w.core.step call }
  | unsent (message : String) : Replied describe w call (some message) w
  | lost (message : String) : Replied describe w call (some message)
      { core := w.core.step call
        stranded := w.stranded || decide (w.core.activePeerTransaction = "" ∧
          (w.core.step call).activePeerTransaction ≠ "") }

variable {reply : Option String} {call : StageCall} {label : String} {holds : ControlledCore → Prop}

theorem replied_of_callCore {call : CoreCall} {outcome : Outcome}
    (done : w.callCore describe call outcome = some (reply, after)) :
    Replied describe w call reply after := by
  cases outcome with
  | works =>
    cases done
    exact .answered
  | fails message =>
    cases done
    exact .unsent message
  | lost message =>
    cases done
    exact .lost message
  | prepared reply => cases done

theorem answers_core (toCore : ∀ fault, (call.coreCall digest fault).isSome)
    (answered : w.answers describe digest (.stage call) reply after) :
    ∃ mid fault request, w.Passes mid ∧ call.coreCall digest fault = some request ∧
      Replied describe mid request reply after := by
  obtain ⟨turn, responds⟩ := answered
  unfold respond at responds
  split at responds
  · next background =>
    dsimp only at responds
    split at responds
    · next request sent =>
      exact ⟨_, turn.fault, request, ⟨_, background, rfl⟩, sent, replied_of_callCore responds⟩
    next kept =>
    have some := toCore turn.fault
    rw [kept] at some
    cases some
  · cases responds

/-- The core is not asked. -/
def Elsewhere (digest : List PeerMutation → Nat) : ExecutorCall → Prop
  | .stage call => ∀ fault, call.coreCall digest fault = none
  | _ => True

theorem passes_of_answers {request : ExecutorCall} {reply : request.Answer}
    (answered : w.answers describe digest request reply after)
    (elsewhere : Elsewhere digest request) : w.Passes after := by
  obtain ⟨turn, responds⟩ := answered
  unfold respond at responds
  split at responds
  · next background =>
    refine ⟨_, background, ?_⟩
    cases request with
    | setState | queueCleanup =>
      cases responds
      rfl
    | preparePeerEndpoints =>
      dsimp only at responds
      split at responds <;> cases responds
      rfl
    | stage call =>
      dsimp only at responds
      rw [elsewhere turn.fault] at responds
      dsimp only [ControlledCore.reply] at responds
      split at responds <;> cases responds <;> rfl
  · cases responds

theorem errorOf_eq_none {errs : Errors} : errorOf describe errs = none ↔ errs = [] := by
  cases errs with
  | nil => exact ⟨fun _ => rfl, fun _ => rfl⟩
  | cons err errs => exact ⟨nofun, nofun⟩

/-- A call that can only end a transaction strands none. -/
theorem Busy.replied (busy : w.Busy transactionID) {call : CoreCall} {otherID : String}
    (closes : Closes otherID w.core (w.core.step call))
    (replied : Replied describe w call reply after) : after.Busy transactionID := by
  have slot : Slot transactionID (w.core.step call) :=
    busy.1.closes (orderly_step busy.1.orderly call) closes
  cases replied with
  | answered => exact ⟨slot, busy.2⟩
  | unsent message => exact busy
  | lost message =>
    refine ⟨slot, ?_⟩
    rw [busy.2, Bool.false_or, decide_eq_false_iff_not]
    rintro ⟨empty, named⟩
    rcases closes with same | ⟨_, gone⟩
    · exact named (same.trans empty)
    · exact named gone

theorem Replied.ok {call : CoreCall} (replied : Replied describe w call none after) :
    (w.core.answer call).1 = [] ∧ after = { w with core := w.core.step call } := by
  generalize quiet : (none : Option String) = reply at replied
  cases replied with
  | answered => exact ⟨errorOf_eq_none.mp quiet.symm, rfl⟩
  | unsent | lost => cases quiet

/-- A call of the executor that opens no transaction. -/
theorem Busy.stage (busy : w.Busy transactionID) {request : Fault → CoreCall}
    (sent : ∀ fault, call.coreCall digest fault = some (request fault))
    (closes : ∀ i fault, Closes transactionID i (i.step (request fault)))
    (answered : w.answers describe digest (.stage call) reply after) :
    after.Busy transactionID ∧ (reply = none → after.stranded = false ∧ ∃ i fault,
      Slot transactionID i ∧ i.answer (request fault) = ([], after.core)) := by
  obtain ⟨mid, fault, asked, passes, asks, replied⟩ :=
    answers_core (fun fault => by rw [sent]; rfl) answered
  cases (sent fault).symm.trans asks
  have busy := busy.passes passes
  refine ⟨busy.replied (closes mid.core fault) replied, ?_⟩
  rintro rfl
  obtain ⟨quiet, rfl⟩ := replied.ok
  exact ⟨busy.2, mid.core, fault, busy.1, Prod.ext quiet rfl⟩

theorem Busy.commitPeerSet (busy : w.Busy transactionID)
    (answered : w.answers describe digest (.stage (.commitPeerSet transactionID)) reply after) :
    after.Busy transactionID :=
  (busy.stage (fun _ => rfl) (fun _ _ => .inl (commitPeerSet_active rfl)) answered).1

theorem Busy.rollbackPeerSet (busy : w.Busy transactionID)
    (answered : w.answers describe digest (.stage (.rollbackPeerSet transactionID)) reply after) :
    after.Busy transactionID ∧ (reply = none → after.Calm) := by
  refine (busy.stage (fun _ => rfl) (fun _ _ => rollbackPeerSet_closes rfl) answered).imp_right ?_
  intro told quiet
  obtain ⟨unstranded, i, fault, slot, done⟩ := told quiet
  exact ⟨slot.rollback done, unstranded⟩

/-- The executor is told that its transaction was taken up, or it was not, or the
reply was lost. -/
theorem Calm.replied (calm : w.Calm) {request : PeerSetRequest} (named : request.transactionID ≠ "")
    {fault : Fault} (replied : Replied describe w (.preparePeerSet request fault) reply after) :
    (reply = none ∧ after.Busy request.transactionID) ∨
      (reply ≠ none ∧ (after.Calm ∨ after.Stuck request.transactionID)) := by
  have prepared : Vacant (w.core.step (.preparePeerSet request fault)) ∨
      ((w.core.answer (.preparePeerSet request fault)).1 = [] ∧
        Taken request.transactionID (w.core.step (.preparePeerSet request fault))) :=
    calm.1.prepare rfl
  cases replied with
  | answered =>
    rcases prepared with vacant | ⟨quiet, taken⟩
    · by_cases quiet : errorOf describe (w.core.answer (.preparePeerSet request fault)).1 = none
      · exact .inl ⟨quiet, vacant.slot, calm.2⟩
      · exact .inr ⟨quiet, .inl ⟨vacant, calm.2⟩⟩
    · exact .inl ⟨errorOf_eq_none.mpr quiet, taken.slot, calm.2⟩
  | unsent message => exact .inr ⟨nofun, .inl calm⟩
  | lost message =>
    refine .inr ⟨nofun, ?_⟩
    rcases prepared with vacant | ⟨_, taken⟩
    · refine .inl ⟨vacant, ?_⟩
      rw [calm.2, Bool.false_or, decide_eq_false_iff_not]
      exact fun opened => opened.2 vacant.active
    · refine .inr ⟨taken, ?_⟩
      rw [calm.2, Bool.false_or, decide_eq_true_iff]
      exact ⟨calm.1.active, fun empty => named (taken.active.symm.trans empty)⟩

theorem Calm.preparePeerSet (calm : w.Calm) (named : transactionID ≠ "")
    {mutations : List PeerMutation}
    (answered : w.answers describe digest (.stage (.preparePeerSet transactionID mutations)) reply
      after) :
    (reply = none ∧ after.Busy transactionID) ∨
      (reply ≠ none ∧ (after.Calm ∨ after.Stuck transactionID)) := by
  obtain ⟨mid, fault, request, passes, sent, replied⟩ := answers_core (fun _ => rfl) answered
  cases sent
  exact (calm.passes passes).replied named replied

/-! ## The executor -/

/-- How an execution may leave the core. -/
def Leaves (transactionID : String) (result : ApplyResult) (w : ControlledCore) : Prop :=
  result.state = some .rolledBack → w.Calm ∨ w.Stuck transactionID

theorem rollbackResult_state {code cause : String} {stage : State} {retryable : Bool}
    {errs : List String} :
    (rollbackResult code stage cause retryable errs).state =
      some (if errs = [] then .rolledBack else .degraded) := by
  unfold rollbackResult
  split <;> rfl

theorem leaves_rollbackResult {code cause : String} {stage : State} {retryable : Bool}
    {errs : List String} (holds : errs = [] → w.Calm ∨ w.Stuck transactionID) :
    Leaves transactionID (rollbackResult code stage cause retryable errs) w := by
  rw [Leaves, rollbackResult_state]
  split
  · next quiet => exact fun _ => holds quiet
  · nofun

variable {post : List String → ControlledCore → Prop}

/-- A call whose error is kept: what follows from its reply holds afterwards. -/
theorem ensures_collect
    (holds : ∀ (reply : Option String) after, w.answers describe digest (.stage call) reply after →
      ∀ errs, (errs = [] ↔ reply = none) → post errs after) :
    (collect label call).Ensures (answers describe digest) post w := by
  intro reply after answered
  cases reply with
  | none => exact holds none after answered [] ⟨fun _ => rfl, fun _ => rfl⟩
  | some err => exact holds (some err) after answered [label ++ ": " ++ err] ⟨nofun, nofun⟩

theorem ensures_collect_elsewhere (elsewhere : ∀ fault, call.coreCall digest fault = none)
    (keeps : ∀ after, w.Passes after → holds after) :
    (collect label call).Ensures (answers describe digest) (fun _ => holds) w :=
  ensures_collect fun _ after answered _ _ => keeps after (passes_of_answers answered elsewhere)

theorem ensures_rollbackPeerSet (busy : w.Busy transactionID) :
    (collect label (.rollbackPeerSet transactionID)).Ensures (answers describe digest)
      (fun errs after => after.Busy transactionID ∧ (errs = [] → after.Calm)) w := by
  refine ensures_collect ?_
  intro reply after answered errs quiet
  obtain ⟨busy, calm⟩ := busy.rollbackPeerSet answered
  exact ⟨busy, fun none => calm (quiet.mp none)⟩

/-- A part that is skipped, or only concerns the endpoints. -/
theorem ensures_rollbackEndpoints {lease : Bool} {otherID : String}
    (keeps : ∀ before after, before.Passes after → holds before → holds after) (start : holds w) :
    (collectIf lease label (.rollbackEndpoints otherID)).Ensures
      (answers describe digest) (fun _ => holds) w := by
  unfold collectIf
  split
  · exact ensures_collect_elsewhere (fun _ => rfl) fun after passes => keeps w after passes start
  · exact start

theorem Stuck.rollbackPrepared_false (stuck : w.Calm ∨ w.Stuck transactionID)
    (code : String) (stage : State) (cause : String) (retryable : Bool) :
    (rollbackPrepared transactionID false false code stage cause retryable).Ensures
      (answers describe digest) (Leaves transactionID) w := by
  have left : ∀ after, w.Passes after → after.Calm ∨ after.Stuck transactionID :=
    fun after passes => stuck.imp (fun calm => calm.passes passes) fun stuck => stuck.passes passes
  have routes : (collect "rollback peer route removals"
      (.rollbackRemovals transactionID)).Ensures (answers describe digest)
        (fun _ after => after.Calm ∨ after.Stuck transactionID) w :=
    ensures_collect_elsewhere (fun _ => rfl) left
  -- Neither endpoints nor core are asked.
  exact routes.bind fun _ _ left => leaves_rollbackResult fun _ => left

section

variable (busy : w.Busy transactionID) (lease : Bool) (code : String) (stage : State)
  (cause : String)

include busy lease code stage cause

theorem Busy.rollbackPrepared (retryable : Bool) :
    (rollbackPrepared transactionID true lease code stage cause retryable).Ensures
      (answers describe digest) (Leaves transactionID) w := by
  refine .bind (ensures_rollbackEndpoints (fun _ _ passes busy => busy.passes passes) busy) ?_
  intro endpoints _ busy
  refine .bind (ensures_rollbackPeerSet busy) ?_
  intro core _ restored
  refine .bind (ensures_collect_elsewhere (fun _ => rfl) fun after passes =>
    fun quiet : core = [] => (restored.2 quiet).passes passes) ?_
  intro routes _ calm
  refine leaves_rollbackResult ?_
  intro quiet
  rw [List.append_eq_nil_iff, List.append_eq_nil_iff] at quiet
  exact .inl (calm quiet.1.2)

theorem Busy.rollbackCommitted (retryable : Bool) :
    (rollbackCommitted transactionID lease code stage cause retryable).Ensures
      (answers describe digest) (Leaves transactionID) w := by
  refine .bind (ensures_collect_elsewhere (fun _ => rfl) fun after passes =>
    busy.passes passes) ?_
  intro additions _ busy
  split
  · next failed => exact leaves_rollbackResult fun quiet => absurd quiet failed
  refine .bind (ensures_rollbackEndpoints (fun _ _ passes busy => busy.passes passes) busy) ?_
  intro endpoints _ busy
  refine .bind (ensures_rollbackPeerSet busy) ?_
  intro core _ restored
  split
  · next failed => exact leaves_rollbackResult fun quiet => absurd quiet failed
  next quiet =>
  rw [not_not, List.append_eq_nil_iff] at quiet
  refine .bind (ensures_collect_elsewhere (fun _ => rfl) fun after passes =>
    (restored.2 quiet.2).passes passes) ?_
  exact fun routes _ calm => leaves_rollbackResult fun _ => .inl calm

end

theorem Busy.commitStages (busy : w.Busy transactionID) :
    (commitStages transactionID).Ensures (answers describe digest)
      (fun result after => match result with
        | some result => Leaves transactionID result after
        | none => after.Busy transactionID) w := by
  intro (reply : Option String) _ answered
  have busy := busy.passes (passes_of_answers answered fun _ => rfl)
  cases reply with
  | some err => exact (busy.rollbackPrepared _ _ _ _ _).bind fun _ _ leaves => leaves
  | none =>
  intro (reply : Option String) _ answered
  have busy := busy.commitPeerSet answered
  cases reply with
  | some err => exact (busy.rollbackPrepared _ _ _ _ _).bind fun _ _ leaves => leaves
  | none =>
  intro (reply : Option String) _ answered
  have busy := busy.passes (passes_of_answers answered fun _ => rfl)
  cases reply with
  | some err => exact (busy.rollbackCommitted _ _ _ _ _).bind fun _ _ leaves => leaves
  | none =>
  intro (reply : Option String) _ answered
  have busy := busy.passes (passes_of_answers answered fun _ => rfl)
  cases reply with
  | some err => exact (busy.rollbackCommitted _ _ _ _ _).bind fun _ _ leaves => leaves
  | none => exact busy

theorem ensures_elsewhere {request : ExecutorCall} (elsewhere : Elsewhere digest request)
    (keeps : ∀ after, w.Passes after → holds after) :
    (Program.ask request).Ensures (answers describe digest) (fun _ => holds) w :=
  fun _ after answered => keeps after (passes_of_answers answered elsewhere)

theorem ensures_finalizeStages : (finalizeStages transactionID).Ensures
    (answers describe digest) (Leaves transactionID) w := by
  refine .bind .trivial fun _ _ _ => .bind .trivial fun result _ _ => ?_
  dsimp only
  split
  · exact nofun
  · exact fun _ _ _ => nofun

theorem Busy.switchStages (busy : w.Busy transactionID) (desired : Config) :
    (switchStages transactionID desired).Ensures (answers describe digest)
      (Leaves transactionID) w := by
  refine .bind (ensures_elsewhere trivial fun after passes => busy.passes passes) ?_
  intro _ _ busy
  refine .bind (ensures_elsewhere trivial fun after passes => busy.passes passes) ?_
  intro endpoints _ busy
  split
  · exact busy.rollbackPrepared _ _ _ _ _
  refine .bind (ensures_elsewhere trivial fun after passes => busy.passes passes) ?_
  intro _ _ busy
  refine .bind busy.commitStages ?_
  intro result _ committed
  cases result with
  | some result => exact committed
  | none => exact ensures_finalizeStages

theorem transactionIDOf_ne (transaction : Transaction) : transactionIDOf transaction ≠ "" := by
  intro empty
  have length := congrArg String.length empty
  rw [transactionIDOf, String.length_append, String.length_append] at length
  have colon : ":".length = 1 := rfl
  have nothing : "".length = 0 := rfl
  omega

theorem Calm.execute (calm : w.Calm) (transaction : Transaction) :
    (execute transaction).Ensures (answers describe digest)
      (Leaves (transactionIDOf transaction)) w := by
  unfold Quick.execute
  split
  · exact fun _ => .inl calm
  refine .bind (ensures_elsewhere trivial fun after passes => calm.passes passes) ?_
  intro _ _ calm (reply : Option String) _ answered
  have calm := calm.passes (passes_of_answers answered fun _ => rfl)
  cases reply with
  | some err => exact fun _ => .inl calm
  | none =>
  intro (reply : Option String) _ answered
  rcases calm.preparePeerSet (transactionIDOf_ne transaction) answered with
    ⟨rfl, busy⟩ | ⟨failed, left⟩
  · exact busy.switchStages _
  · cases reply with
    | none => exact absurd rfl failed
    | some err => exact Stuck.rollbackPrepared_false left _ _ _ _

/-- An execution on a core without an active transaction that ends rolled back: it
leaves none active, unless the reply to `PreparePeerSet` was lost. -/
theorem rolled_back_leaves_none_active (describe : Errors → String)
    (digest : List PeerMutation → Nat) {settings : TransportSettings} {config : Bind.Config}
    {configured : List ConfiguredPeer} {core : Instance} {transaction : Transaction}
    {result : ApplyResult} {after : ControlledCore}
    (reached : Instance.Reaches (fun _ _ => True) (newInstance settings config configured) core)
    (idle : core.activePeerTransaction = "")
    (ran : (execute transaction).Runs (answers describe digest) { core } result after)
    (rolledBack : result.state = some .rolledBack) :
    after.stranded = false ↔ after.core.activePeerTransaction = "" ∧
      ∀ request fault, CoreError.anotherActive ∉ (after.core.preparePeerSet request fault).1 := by
  have orderly := orderly_of_reaches (orderly_newInstance _ _ _) reached
  have calm : ({ core } : ControlledCore).Calm := ⟨⟨orderly, idle⟩, rfl⟩
  rcases (calm.execute transaction).runs ran rolledBack with
    ⟨vacant, unstranded⟩ | ⟨taken, stranded⟩
  · exact ⟨fun _ => ⟨vacant.active, vacant.not_anotherActive⟩, fun _ => unstranded⟩
  · rw [stranded]
    refine ⟨nofun, ?_⟩
    rintro ⟨empty, _⟩
    exact absurd (taken.active.symm.trans empty) (transactionIDOf_ne transaction)

/-- The first peer of a core gets another policy. -/
def retuning : Transaction :=
  { epoch := "e"
    requestID := "r"
    baseGeneration := 1
    nextGeneration := 2
    current := { peers := [{ publicKey := firstPeer.toList, fecPolicy := "balanced".toList }] }
    desired := { peers := [{ publicKey := firstPeer.toList, fecPolicy := "latency".toList }] }
    diff := { updated := [⟨firstPeer.toList, ["fec_policy"]⟩] } }

def trial (turns : List Turn) : Option (ApplyResult × ControlledCore) :=
  (execute retuning).runWith (respond (fun _ => "") fun _ => 0) turns
    { core := pairCore }

/-- The core prepares the transaction, but the executor is not told. -/
def timeout : List Turn := [{}, {}, { outcome := .lost "i/o timeout" }, {}]

theorem timeout_leaves_active : ∃ result after,
    (execute retuning).Runs (answers (fun _ => "") fun _ => 0)
      { core := pairCore } result after ∧
    result.state = some .rolledBack ∧ after.core.activePeerTransaction = "e:r" ∧
    (after.core.preparePeerSet
      ⟨"e:s", [{ operation := .update, publicKey := firstPeer }], 1⟩ none).1 =
      [.anotherActive] := by
  have ends : (trial timeout).map (fun (result, after) =>
      (result.state, after.core.activePeerTransaction, (after.core.preparePeerSet
        ⟨"e:s", [{ operation := .update, publicKey := firstPeer }], 1⟩ none).1)) =
      some (some .rolledBack, "e:r", [.anotherActive]) := by
    decide +kernel
  obtain ⟨⟨result, after⟩, ran, same⟩ := Option.map_eq_some_iff.mp ends
  rw [Prod.mk.injEq, Prod.mk.injEq] at same
  exact ⟨result, after, Program.runs_of_runWith ran, same.1, same.2.1, same.2.2⟩

/-- The core prepares the transaction, and no endpoint is found. -/
def unresolved : List Turn :=
  [{}, {}, {}, {}, { outcome := .prepared ⟨false, some ⟨"no such host", false⟩⟩ }, {}, {}]

theorem unresolved_leaves_none_active : ∃ result after,
    (execute retuning).Runs (answers (fun _ => "") fun _ => 0)
      { core := pairCore } result after ∧
    result.state = some .rolledBack ∧ after.core.activePeerTransaction = "" := by
  have ends : (trial unresolved).map (fun (result, after) => (result.state, after.stranded)) =
      some (some .rolledBack, false) := by
    decide +kernel
  obtain ⟨⟨result, after⟩, ran, same⟩ := Option.map_eq_some_iff.mp ends
  rw [Prod.mk.injEq] at same
  have runs := Program.runs_of_runWith ran
  refine ⟨result, after, runs, same.1, ?_⟩
  exact ((rolled_back_leaves_none_active _ _ .refl rfl runs same.1).mp same.2).1

end ControlledCore

end WgQuic.Quick
