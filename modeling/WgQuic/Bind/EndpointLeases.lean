import WgQuic.Bind.ReceiveKeys
import WgQuic.Lib.LeaseBook

/-!
# The endpoints of a bind

Next to its keys a bind counts the leases of the FEC policy of each endpoint.
It also keeps an object for every endpoint that WireGuard may send to, and an
object that was retired is not dialled again.
-/

namespace WgQuic.Bind

open Obfs AList

/-- The policies that `normalizeFECPolicy` lets through. -/
inductive FECPolicy where
  | latency
  | balanced
  | throughput
deriving DecidableEq, Repr

structure FECPolicyLease where
  policy : FECPolicy
  refs : Nat
deriving DecidableEq, Repr

inductive LeaseError where
  /-- "valid numeric endpoint is required" -/
  | invalidEndpoint (cause : String)
  /-- "endpoint … is already associated with FEC policy …" -/
  | otherPolicy (endpoint : AddrPort) (policy : FECPolicy)
  /-- "endpoint … FEC policy lease changed concurrently" -/
  | leaseChanged (endpoint : AddrPort)
  | key (cause : BindError)
deriving DecidableEq, Repr

/-! ## FEC policies -/

structure FECLeases where
  fecPolicies : AList (fun _ : AddrPort => FECPolicyLease) := ∅
  /-- The release functions that were returned. -/
  handles : List (Handle AddrPort FECPolicy) := []

namespace FECLeases

def lease (b : FECLeases) (endpoint : AddrPort) (policy : FECPolicy) (refs : Nat) : FECLeases :=
  { b with fecPolicies := b.fecPolicies.insert endpoint { policy, refs } }

/-- `endpointFECPolicyRelease`: the function that is returned. -/
def hand (b : FECLeases) (endpoint : AddrPort) (policy : FECPolicy) : FECLeases :=
  { b with handles := b.handles ++ [{ resource := endpoint, tag := policy }] }

def acquireEndpointFECPolicy (b : FECLeases) (endpoint : Option AddrPort)
    (policy : FECPolicy) : Except LeaseError Nat × FECLeases :=
  match ArmorBind.canonical endpoint with
  | .error cause => (.error (.invalidEndpoint cause), b)
  | .ok endpoint =>
    match b.fecPolicies.lookup endpoint with
    | none => (.ok b.handles.length, (b.lease endpoint policy 1).hand endpoint policy)
    | some current =>
      if current.refs ≠ 0 ∧ current.policy ≠ policy then
        (.error (.otherPolicy endpoint current.policy), b)
      else
        (.ok b.handles.length, (b.lease endpoint policy (current.refs + 1)).hand endpoint policy)

def replaceEndpointFECPolicy (b : FECLeases) (endpoint : Option AddrPort)
    (oldPolicy newPolicy : FECPolicy) : Except LeaseError Nat × FECLeases :=
  match ArmorBind.canonical endpoint with
  | .error cause => (.error (.invalidEndpoint cause), b)
  | .ok endpoint =>
    match b.fecPolicies.lookup endpoint with
    | none => (.error (.leaseChanged endpoint), b)
    | some current =>
      if current.refs ≠ 1 ∨ current.policy ≠ oldPolicy then
        (.error (.leaseChanged endpoint), b)
      else
        (.ok b.handles.length, (b.lease endpoint newPolicy 1).hand endpoint newPolicy)

/-- The body of a release function. -/
def releaseEndpointFECPolicy (b : FECLeases) (endpoint : AddrPort) (policy : FECPolicy) :
    FECLeases :=
  match b.fecPolicies.lookup endpoint with
  | none => b
  | some current =>
    if current.refs = 0 ∨ current.policy ≠ policy then b
    else if current.refs - 1 = 0 then
      { b with fecPolicies := b.fecPolicies.erase endpoint }
    else b.lease endpoint current.policy (current.refs - 1)

/-- Calling a returned release function. -/
def callRelease (b : FECLeases) (index : Nat) : FECLeases :=
  match b.handles[index]? with
  | none => b
  | some handle =>
    if handle.released then b
    else
      releaseEndpointFECPolicy { b with
        handles := b.handles.modify index fun handle =>
          { handle with released := true } } handle.resource handle.tag

def book (b : FECLeases) : LeaseBook AddrPort FECPolicy where
  lease endpoint := (b.fecPolicies.lookup endpoint).map fun lease =>
    (lease.policy, lease.refs)
  handle index := b.handles[index]?

variable {b after : FECLeases} {endpoint : AddrPort} {policy : FECPolicy} {index : Nat} {refs : Nat}

theorem book_hands : b.book.Hands endpoint policy refs b.handles.length
    ((b.lease endpoint policy refs).hand endpoint policy).book where
  counted := by simp [book, hand, lease]
  otherLeases _ different := by simp [book, hand, lease, lookup_insert_ne different]
  unused := by simp [book]
  handed := by simp [book, hand, lease]
  otherHandles _ different := List.getElem?_concat_ne different

variable {chosen : Option AddrPort}

theorem acquire_acquires
    (acquired : b.acquireEndpointFECPolicy chosen policy = (.ok index, after)) :
    ∃ endpoint, ArmorBind.canonical chosen = .ok endpoint ∧
      b.book.Acquires endpoint policy index after.book := by
  unfold acquireEndpointFECPolicy at acquired
  split at acquired
  · cases acquired
  next endpoint canonical =>
    refine ⟨endpoint, canonical, ?_⟩
    split at acquired
    · next unleased =>
      cases acquired
      have noRefs : b.book.refs endpoint = 0 := by simp [LeaseBook.refs, book, unleased]
      exact ⟨noRefs ▸ book_hands, .inl noRefs⟩
    next current found =>
      split at acquired
      · cases acquired
      next fits =>
        cases acquired
        have leased : b.book.lease endpoint = some (current.policy, current.refs) := by
          simp [book, found]
        have refs := LeaseBook.refs_of_lease leased
        refine ⟨refs ▸ book_hands, ?_⟩
        by_cases zero : current.refs = 0
        · exact .inl (refs.trans zero)
        · have same : current.policy = policy := by
            by_contra different
            exact fits ⟨zero, different⟩
          exact .inr ⟨current.refs, by rw [leased, same]⟩

theorem replace_replaces {old new : FECPolicy}
    (replaced : b.replaceEndpointFECPolicy chosen old new = (.ok index, after)) :
    ∃ endpoint, ArmorBind.canonical chosen = .ok endpoint ∧
      b.book.Replaces endpoint old new index after.book := by
  unfold replaceEndpointFECPolicy at replaced
  split at replaced
  · cases replaced
  next endpoint canonical =>
    refine ⟨endpoint, canonical, ?_⟩
    split at replaced
    · cases replaced
    next current found =>
      split at replaced
      · cases replaced
      next fits =>
        cases replaced
        simp only [ne_eq, not_or, Decidable.not_not] at fits
        exact ⟨book_hands, by simp [book, found, fits.1, fits.2]⟩

theorem replace_of_sole {old new : FECPolicy} (valid : endpoint.port ≠ 0)
    (canonical : canonicalAddrPort endpoint = endpoint)
    (sole : b.book.lease endpoint = some (old, 1)) :
    b.replaceEndpointFECPolicy (some endpoint) old new =
      (.ok b.handles.length, (b.lease endpoint new 1).hand endpoint new) := by
  simp only [book, Option.map_eq_some_iff] at sole
  obtain ⟨⟨_, _⟩, found, equal⟩ := sole
  cases equal
  simp [replaceEndpointFECPolicy, ArmorBind.canonical, valid, canonical, found]

theorem book_lease_release_ne {other : AddrPort} (different : other ≠ endpoint) :
    (b.releaseEndpointFECPolicy endpoint policy).book.lease other = b.book.lease other := by
  unfold releaseEndpointFECPolicy
  split
  · rfl
  split
  · rfl
  split
  · simp [book, lookup_erase_ne different]
  · simp [book, lease, lookup_insert_ne different]

theorem releaseEndpointFECPolicy_handles :
    (b.releaseEndpointFECPolicy endpoint policy).handles = b.handles := by
  unfold releaseEndpointFECPolicy
  repeat' split
  all_goals rfl

theorem place_callRelease (called : Nat) :
    (b.callRelease called).book.place index = b.book.place index := by
  unfold callRelease
  split
  · rfl
  split
  · rfl
  · simp only [LeaseBook.place, book, releaseEndpointFECPolicy_handles, List.getElem?_modify]
    cases b.handles[index]? with
    | none => rfl
    | some handle => simp [apply_ite]

/-- A function that was not called yet gives back its reference. -/
theorem callRelease_releases {held : List Nat} (balanced : b.book.Balanced held)
    (listed : index ∈ held) : b.book.Releases index (b.callRelease index).book := by
  obtain ⟨handle, found, unreleased, refs, leased⟩ := balanced.agrees index listed
  have handleAt : b.handles[index]? = some handle := found
  have positive : 0 < refs := by
    rw [← LeaseBook.refs_of_lease leased, balanced.counts, List.countP_pos_iff]
    exact ⟨index, listed, LeaseBook.isFor_iff.mpr ⟨handle, found, rfl⟩⟩
  have called : b.callRelease index = releaseEndpointFECPolicy { b with
      handles := b.handles.modify index fun handle =>
        { handle with released := true } } handle.resource handle.tag := by
    simp [callRelease, handleAt, unreleased]
  rw [called]
  refine .of_handle found leased ?_ ?_ ?_
  · simp only [book, Option.map_eq_some_iff] at leased
    obtain ⟨current, lookup, equal⟩ := leased
    simp only [Prod.mk.injEq] at equal
    obtain ⟨policyEq, refsEq⟩ := equal
    have notZero : ¬current.refs = 0 := by omega
    by_cases last : current.refs - 1 = 0
    · rw [if_neg (by omega)]
      simp [releaseEndpointFECPolicy, lookup, notZero, last, book, policyEq]
    · rw [if_pos (by omega), ← refsEq]
      simp [releaseEndpointFECPolicy, lookup, notZero, last, book, lease, policyEq]
  · exact fun other different => book_lease_release_ne different
  · intro other different
    simp only [book, releaseEndpointFECPolicy_handles]
    rw [List.getElem?_modify_ne _ _ (Ne.symm different)]

end FECLeases

/-! ## Endpoint keys -/

namespace ArmorBind

def endpointBook (b : ArmorBind) : LeaseBook AddrPort Key where
  lease endpoint := (b.obfsDynamic.lookup endpoint).map fun lease => (lease.key, lease.refs)
  handle index := b.endpointHandles[index]?.map fun handle =>
    { resource := handle.endpoint, tag := handle.key, released := handle.released }

variable {b after : ArmorBind} {endpoint : AddrPort} {key : Key} {index : Nat}

theorem acquireEndpointKey_acquires {chosen : Option AddrPort}
    (acquired : b.acquireEndpointKey chosen key = (none, after)) :
    ∃ endpoint, canonical chosen = .ok endpoint ∧
      b.endpointBook.Acquires endpoint key b.endpointHandles.length after.endpointBook := by
  unfold acquireEndpointKey at acquired
  split at acquired
  · cases acquired
  next endpoint valid =>
    refine ⟨endpoint, valid, ?_⟩
    dsimp only at acquired
    split at acquired
    · cases acquired
    next fits =>
      cases acquired
      refine ⟨⟨?_, fun other different => ?_, by simp [endpointBook], by simp [endpointBook],
        fun other different => ?_⟩, ?_⟩
      · cases found : b.obfsDynamic.lookup endpoint with
        | none | some => simp [LeaseBook.refs, endpointBook, found]
      · simp [endpointBook, lookup_insert_ne different]
      · simp only [endpointBook, List.getElem?_concat_ne different]
      · cases found : b.obfsDynamic.lookup endpoint with
        | none => exact .inl (by simp [LeaseBook.refs, endpointBook, found])
        | some lease =>
          have same : lease.key = key := by simpa [found] using fits
          exact .inr ⟨lease.refs, by simp [endpointBook, found, same]⟩

theorem endpointBook_lease_release_ne {other : AddrPort} (different : other ≠ endpoint) :
    (b.releaseEndpointKey endpoint key).endpointBook.lease other = b.endpointBook.lease other := by
  unfold releaseEndpointKey
  split
  · rfl
  split
  · rfl
  split
  · simp [endpointBook, lookup_insert_ne different]
  · simp [endpointBook, lookup_erase_ne different]

theorem releaseEndpointKey_endpointHandles :
    (b.releaseEndpointKey endpoint key).endpointHandles = b.endpointHandles := by
  unfold releaseEndpointKey
  repeat' split
  all_goals rfl

theorem place_callEndpointRelease (called : Nat) :
    (b.callEndpointRelease called).endpointBook.place index = b.endpointBook.place index := by
  unfold callEndpointRelease
  split
  · rfl
  split
  · rfl
  · simp only [LeaseBook.place, endpointBook, releaseEndpointKey_endpointHandles,
      List.getElem?_modify]
    cases b.endpointHandles[index]? with
    | none => rfl
    | some handle => simp [apply_ite]

theorem callEndpointRelease_releases {held : List Nat}
    (balanced : b.endpointBook.Balanced held) (listed : index ∈ held) :
    b.endpointBook.Releases index (b.callEndpointRelease index).endpointBook := by
  obtain ⟨handle, found, unreleased, refs, leased⟩ := balanced.agrees index listed
  have returned := found
  simp only [endpointBook, Option.map_eq_some_iff] at returned
  obtain ⟨source, handleAt, rfl⟩ := returned
  have called : b.callEndpointRelease index = releaseEndpointKey { b with
      endpointHandles := b.endpointHandles.modify index fun handle =>
        { handle with released := true } } source.endpoint source.key := by
    have open_ : source.released = false := unreleased
    simp [callEndpointRelease, handleAt, open_]
  rw [called]
  refine .of_handle found leased ?_ ?_ ?_
  · simp only [endpointBook, Option.map_eq_some_iff] at leased
    obtain ⟨current, lookup, equal⟩ := leased
    simp only [Prod.mk.injEq] at equal
    obtain ⟨keyEq, refsEq⟩ := equal
    by_cases more : refs - 1 > 0
    · simp [releaseEndpointKey, lookup, endpointBook, keyEq, refsEq, more]
    · simp [releaseEndpointKey, lookup, endpointBook, keyEq, refsEq, more]
  · exact fun other different => endpointBook_lease_release_ne different
  · intro other different
    simp only [endpointBook, releaseEndpointKey_endpointHandles]
    rw [List.getElem?_modify_ne _ _ (Ne.symm different)]

/-- The other calls of the bind leave the leases of endpoints alone. -/
theorem endpointBook_congr (leases : after.obfsDynamic = b.obfsDynamic)
    (handles : after.endpointHandles = b.endpointHandles) :
    after.endpointBook = b.endpointBook := by
  rw [endpointBook, endpointBook, leases, handles]

theorem endpointBook_acquireReceiveKey :
    (b.acquireReceiveKey key).endpointBook = b.endpointBook := by
  unfold acquireReceiveKey
  apply endpointBook_congr
  · dsimp only
    split <;> rfl
  · dsimp only
    split <;> rfl

theorem endpointBook_releaseReceiveKey :
    (b.releaseReceiveKey key).endpointBook = b.endpointBook := by
  unfold releaseReceiveKey
  split
  · rfl
  split
  · rfl
  split <;> rfl

theorem endpointBook_callReceiveRelease :
    (b.callReceiveRelease index).endpointBook = b.endpointBook := by
  unfold callReceiveRelease
  split
  · rfl
  split
  · rfl
  · exact endpointBook_releaseReceiveKey

theorem endpointBook_registerLoop (keys : List Key) :
    (registerLoop keys b).endpointBook = b.endpointBook := by
  induction keys generalizing b with
  | nil => rfl
  | cons key rest ih => exact ih

theorem endpointBook_closeLoop (keys : List Key) :
    (closeLoop keys b).endpointBook = b.endpointBook := by
  induction keys generalizing b with
  | nil => rfl
  | cons key rest ih => exact ih

theorem endpointBook_open_ (failure : Option String) (endpoints : List (AddrPort × Key))
    (leases : List Key) : (b.open_ failure endpoints leases).2.endpointBook = b.endpointBook := by
  unfold open_
  split
  · rfl
  split
  · rfl
  · rfl
  · exact endpointBook_registerLoop _
  · exact endpointBook_registerLoop _

theorem endpointBook_close : b.close.endpointBook = b.endpointBook := endpointBook_closeLoop _

end ArmorBind

/-! ## Endpoint objects -/

/-- `Endpoint`, as far as dialling it goes. -/
structure EndpointObject where
  addr : AddrPort
  retired : Bool := false
deriving DecidableEq, Repr

structure EndpointBind where
  keys : ArmorBind
  fec : FECLeases := {}
  /-- Every endpoint object there is, and those of the open state. -/
  objects : List EndpointObject := []
  endpoints : AList (fun _ : AddrPort => Nat) := ∅
  receiveSequence : UInt64 := 0

namespace EndpointBind

def retireEndpoint (b : EndpointBind) (endpoint : AddrPort) : EndpointBind :=
  if b.keys.state.isSome then
    match b.endpoints.lookup endpoint with
    | none => b
    | some object =>
      { b with
        endpoints := b.endpoints.erase endpoint
        objects := b.objects.modify object fun ep => { ep with retired := true } }
  else b

/-- The object of a numeric endpoint. -/
def parseEndpoint (b : EndpointBind) (endpoint : AddrPort) : Nat × EndpointBind :=
  if b.keys.state.isSome then
    match b.endpoints.lookup endpoint with
    | some object =>
      (object, { b with
        objects := b.objects.modify object fun ep => { ep with retired := false } })
    | none =>
      (b.objects.length, { b with
        objects := b.objects ++ [{ addr := endpoint }]
        endpoints := b.endpoints.insert endpoint b.objects.length })
  else (b.objects.length, { b with objects := b.objects ++ [{ addr := endpoint }] })

inductive DialError where
  /-- `net.ErrClosed` -/
  | closed
  /-- "cannot dial a retired peer endpoint" -/
  | retired
deriving DecidableEq, Repr

/-- `sessionForEndpoint` of a configured endpoint that has no session. -/
def sessionForEndpoint (b : EndpointBind) (object : Nat) : Except DialError Unit × EndpointBind :=
  match b.keys.state.isSome, b.objects[object]? with
  | true, some ep =>
    if ep.retired then (.error .retired, b)
    else if (b.endpoints.lookup ep.addr).isSome then (.ok (), b)
    else (.ok (), { b with endpoints := b.endpoints.insert ep.addr object })
  | _, _ => (.error .closed, b)

/-- `Open`; the new state has no endpoints. -/
def open_ (b : EndpointBind) (failure : Option String) (endpoints : List (AddrPort × Key))
    (leases : List Key) : EndpointBind :=
  match b.keys.open_ failure endpoints leases with
  | (none, keys) => { b with keys, endpoints := ∅ }
  | (some _, keys) => { b with keys }

def close (b : EndpointBind) : EndpointBind :=
  { b with keys := b.keys.close, endpoints := ∅ }

end EndpointBind

end WgQuic.Bind
