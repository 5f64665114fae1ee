import WgQuic.Obfs.Salamander

/-!
# Decoding while keys are released

The reader takes no lock: it loads the snapshot and the cached key one after the
other, and it stores the cached key after its scan.  The mutex of the keys lets
one goroutine at a time acquire or release, but the reader sees every store of
it.  Each access to one of the two atomics is a step here.
-/

namespace WgQuic.Obfs

open Fec (Bytes)

/-- Where a call of `decode` is. -/
inductive Reader where
  | idle
  | started (packet : Bytes) (capacity : Nat)
  | loaded (packet : Bytes) (keys : List Key)
  /-- The cached key did not fit. -/
  | scanning (packet : Bytes) (keys : List Key)
  | storing (plain : Bytes) (key : Key)
  | returning (result : Option (Bytes × Key))

/-- Where the goroutine is that holds the mutex of the keys. -/
inductive Writer where
  | none
  /-- `AcquireReceiveKey` has counted its reference. -/
  | acquired (key : Key)
  | published (key : Key)
  /-- `releaseReceiveKey` has given back a reference, the last one or not. -/
  | released (key : Key) (last : Bool)
  /-- It has found the key in the cache. -/
  | clearing (key : Key) (last : Bool)
  | publishing (key : Key) (last : Bool)
  | returning (key : Key) (last : Bool)
deriving DecidableEq

structure KeyState where
  conn : SalamanderConn
  /-- The keys whose release function was not called yet, once for each. -/
  leases : List Key := []
  writer : Writer := .none
  reader : Reader := .idle

inductive KeyStep where
  | acquire (key : Key)
  | release (key : Key)
  /-- The goroutine with the mutex goes on. -/
  | write
  | decode (packet : Bytes) (capacity : Nat)
  | read

/-- What a step shows to the callers. -/
inductive KeyReport where
  | silent
  | acquiring (key : Key)
  /-- `releaseReceiveKey` returns; it has removed the last reference or not. -/
  | released (key : Key) (last : Bool)
  | started
  | decoded (key : Key)
  | rejected
deriving DecidableEq

def KeyReport.ofResult : Option (Bytes × Key) → KeyReport
  | none => .rejected
  | some (_, key) => .decoded key

namespace SalamanderConn

/-- The maps of `releaseReceiveKey`. -/
def dropReceiveKeyLocked (c : SalamanderConn) (key : Key) : SalamanderConn :=
  if c.refs key ≤ 1 then
    { c with
      keyRefs := c.keyRefs.erase key
      keyOrder := c.keyOrder.erase key }
  else { c with keyRefs := c.keyRefs.insert key (c.refs key - 1) }

/-- Whether a packet has the hint of a key. -/
def hinted (digests : Digests) (packet : Bytes) (key : Key) : Bool :=
  (packet.drop salamanderSaltSize).take salamanderHintSize =
    digests.hint key (packet.take salamanderSaltSize)

def open_ (digests : Digests) (packet : Bytes) (key : Key) : Bytes :=
  xorWords (packet.drop salamanderHeaderSize) (digests.stream key (packet.take salamanderSaltSize))

end SalamanderConn

open SalamanderConn

namespace KeyState

/-- The next access of the goroutine with the mutex. -/
def write (s : KeyState) : Option (KeyReport × KeyState) :=
  match s.writer with
  | .none => none
  | .acquired key =>
    some (.silent, { s with
      conn := s.conn.publishReceiveKeysLocked, writer := .published key })
  | .published key =>
    some (.silent, { s with leases := s.leases ++ [key], writer := .none })
  | .released key last =>
    some (.silent, { s with
      writer := if s.conn.lastKey = some key then .clearing key last
        else .publishing key last })
  | .clearing key last =>
    some (.silent, { s with
      conn := { s.conn with lastKey := none }, writer := .publishing key last })
  | .publishing key last =>
    some (.silent, { s with
      conn := s.conn.publishReceiveKeysLocked, writer := .returning key last })
  | .returning key last => some (.released key last, { s with writer := .none })

def read (digests : Digests) (s : KeyState) : Option (KeyReport × KeyState) :=
  match s.reader with
  | .idle => none
  | .started packet capacity =>
    some (.silent, { s with
      reader :=
        if packet.length ≤ salamanderHeaderSize ∨
            capacity < packet.length - salamanderHeaderSize then .returning none
        else .loaded packet s.conn.keySet })
  | .loaded packet keys =>
    some (.silent, { s with
      reader :=
        match s.conn.lastKey.filter (hinted digests packet) with
        | some key => .returning (some (open_ digests packet key, key))
        | none => .scanning packet keys })
  | .scanning packet keys =>
    some (.silent, { s with
      reader :=
        match keys.find? (hinted digests packet) with
        | some key => .storing (open_ digests packet key) key
        | none => .returning none })
  | .storing plain key =>
    some (.silent, { s with
      conn := { s.conn with lastKey := some key }
      reader := .returning (some (plain, key)) })
  | .returning result => some (.ofResult result, { s with reader := .idle })

/-- A step is missing while it has to wait: for the mutex, or for the decoding
before it.  A release function acts once. -/
def step (digests : Digests) (s : KeyState) : KeyStep → Option (KeyReport × KeyState)
  | .acquire key =>
    if s.writer = .none then
      some (.acquiring key, { s with
        conn := s.conn.addReceiveKeyLocked key, writer := .acquired key })
    else none
  | .release key =>
    if s.writer = .none ∧ key ∈ s.leases then
      some (.silent, { s with
        conn := s.conn.dropReceiveKeyLocked key, leases := s.leases.erase key
        writer := .released key (s.conn.refs key ≤ 1) })
    else none
  | .write => s.write
  | .decode packet capacity =>
    match s.reader with
    | .idle => some (.started, { s with reader := .started packet capacity })
    | _ => none
  | .read => s.read digests

def start (peers : List PeerKey) : KeyState where
  conn := wrapKeyedSalamander peers

/-- The runs whose steps are all allowed, with what they show. -/
inductive Runs (digests : Digests) (allowed : KeyState → KeyStep → Prop) :
    KeyState → List KeyReport → KeyState → Prop where
  | refl {s : KeyState} : Runs digests allowed s [] s
  | step {s mid after : KeyState} {report : KeyReport} {reports : List KeyReport}
      (taken : KeyStep) (may : allowed s taken)
      (stepped : s.step digests taken = some (report, mid))
      (rest : Runs digests allowed mid reports after) :
      Runs digests allowed s (report :: reports) after

/-- The reader does not cache a key that was removed, once the release has looked
at the cache. -/
def Prompt (s : KeyState) (taken : KeyStep) : Prop :=
  match taken, s.reader with
  | .read, .storing _ key => 0 < s.conn.refs key ∨ ∃ last, s.writer = .released key last
  | _, _ => True

instance (s : KeyState) (taken : KeyStep) : Decidable (s.Prompt taken) := by
  unfold Prompt
  split <;> infer_instance

def runAll (digests : Digests) (allowed : KeyState → KeyStep → Prop)
    [∀ s taken, Decidable (allowed s taken)] :
    List KeyStep → KeyState → Option (List KeyReport × KeyState)
  | [], s => some ([], s)
  | taken :: rest, s =>
    if allowed s taken then
      (s.step digests taken).bind fun (report, mid) =>
        (runAll digests allowed rest mid).map fun (reports, after) =>
          (report :: reports, after)
    else none

theorem runs_of_runAll {digests : Digests} {allowed : KeyState → KeyStep → Prop}
    [∀ s taken, Decidable (allowed s taken)] {steps : List KeyStep} {s : KeyState}
    {reports : List KeyReport}
    (shown : (runAll digests allowed steps s).map Prod.fst = some reports) :
    ∃ after, Runs digests allowed s reports after := by
  induction steps generalizing s reports with
  | nil =>
    cases shown
    exact ⟨s, .refl⟩
  | cons taken rest ih =>
    rw [runAll] at shown
    split at shown
    next may =>
      cases stepped : s.step digests taken with
      | none => simp [stepped] at shown
      | some result =>
        cases ran : runAll digests allowed rest result.2 with
        | none => simp [stepped, ran] at shown
        | some final =>
          simp only [stepped, Option.bind_some, ran, Option.map_some, Option.some.injEq] at shown
          obtain ⟨after, runs⟩ := ih (by rw [ran]; rfl)
          subst shown
          exact ⟨after, .step taken may stepped runs⟩
    · cases shown

end KeyState

/-- A key decodes in a call that starts after its last release has returned, and
it was not acquired since.  There is one reader, so what is decoded after a call
has started is decoded by that call or a later one. -/
def ReleasedKeyDecodes (key : Key) (reports : List KeyReport) : Prop :=
  ∃ before between during,
    reports = before ++ .released key true :: (between ++ .started :: (during ++ [.decoded key])) ∧
    .acquiring key ∉ between ∧ .acquiring key ∉ during

namespace KeyState

variable {digests : Digests} {allowed : KeyState → KeyStep → Prop}

@[simp]
theorem dropReceiveKeyLocked_keySet (c : SalamanderConn) (key : Key) :
    (c.dropReceiveKeyLocked key).keySet = c.keySet := by
  unfold dropReceiveKeyLocked
  split
  · rfl
  · rfl

@[simp]
theorem dropReceiveKeyLocked_lastKey (c : SalamanderConn) (key : Key) :
    (c.dropReceiveKeyLocked key).lastKey = c.lastKey := by
  unfold dropReceiveKeyLocked
  split
  · rfl
  · rfl

/-- A release that is not interrupted is the one of the connection. -/
theorem releaseReceiveKey_eq (c : SalamanderConn) (key : Key) : c.releaseReceiveKey key =
      publishReceiveKeysLocked { c.dropReceiveKeyLocked key with
        lastKey := if c.lastKey = some key then none else c.lastKey } := by
  unfold releaseReceiveKey dropReceiveKeyLocked
  split
  · rfl
  · rfl

/-- The accesses of a release, when no reader comes in between. -/
theorem writes_release (s : KeyState) (key : Key) (last : Bool) :
    Relation.ReflTransGen (fun before after : KeyState => before.write = some (.silent, after))
      { s with conn := s.conn.dropReceiveKeyLocked key, writer := .released key last }
      { s with conn := s.conn.releaseReceiveKey key, writer := .returning key last } := by
  rw [releaseReceiveKey_eq]
  by_cases cached : s.conn.lastKey = some key
  · have looks : write { s with
        conn := s.conn.dropReceiveKeyLocked key, writer := .released key last } =
          some (.silent, { s with
            conn := s.conn.dropReceiveKeyLocked key, writer := .clearing key last }) := by
      simp [write, cached]
    rw [if_pos cached]
    exact .tail (.tail (.single looks) rfl) rfl
  · have looks : write { s with
        conn := s.conn.dropReceiveKeyLocked key, writer := .released key last } =
          some (.silent, { s with
            conn := s.conn.dropReceiveKeyLocked key, writer := .publishing key last }) := by
      simp [write, cached]
    rw [if_neg cached, ← dropReceiveKeyLocked_lastKey s.conn key]
    exact .tail (.single looks) rfl

/-- The accesses of a call of `decode`, when no writer comes in between. -/
theorem reads_decode (s : KeyState) (packet : Bytes) (capacity : Nat) : Relation.ReflTransGen
      (fun before after : KeyState => before.read digests = some (.silent, after))
      { s with reader := .started packet capacity }
      { s with
        conn := (s.conn.decode digests packet capacity).2
        reader := .returning (s.conn.decode digests packet capacity).1 } := by
  have same : s.conn.decode digests packet capacity = if packet.length ≤ salamanderHeaderSize ∨
          capacity < packet.length - salamanderHeaderSize then (none, s.conn)
      else
        match s.conn.lastKey.filter (hinted digests packet) with
        | some key => (some (open_ digests packet key, key), s.conn)
        | none =>
          match s.conn.keySet.find? (hinted digests packet) with
          | some key => (some (open_ digests packet key, key), { s.conn with lastKey := some key })
          | none => (none, s.conn) := rfl
  rw [same]
  split
  next short =>
    refine .single ?_
    simp only [read, if_pos short]
  next long =>
  refine .head (b := { s with reader := .loaded packet s.conn.keySet }) ?_ ?_
  · simp only [read, if_neg long]
  cases cached : s.conn.lastKey.filter (hinted digests packet) with
  | some key =>
    refine .single ?_
    simp only [read, cached]
  | none =>
    refine .head (b := { s with reader := .scanning packet s.conn.keySet }) ?_ ?_
    · simp only [read, cached]
    cases found : s.conn.keySet.find? (hinted digests packet) with
    | some key =>
      refine .head (b := { s with reader := .storing (open_ digests packet key) key }) ?_
        (.single rfl)
      simp only [read, found]
    | none =>
      refine .single ?_
      simp only [read, found]

end KeyState

/-! ## Invariants -/

/-- The key that the goroutine with the mutex is about. -/
def Writer.key : Writer → Option Key
  | .none => Option.none
  | .acquired key | .published key => some key
  | .released key _ | .clearing key _ | .publishing key _ | .returning key _ => some key

/-- The lease that `AcquireReceiveKey` is about to return. -/
def Writer.owes : Writer → Key → Nat
  | .acquired key, other | .published key, other => if other = key then 1 else 0
  | _, _ => 0

/-- The key whose last reference `releaseReceiveKey` has given back. -/
def Writer.removed : Writer → Option Key
  | .released key true | .clearing key true | .publishing key true
  | .returning key true => some key
  | _ => Option.none

/-- The key that a release may still have to take out of the cache. -/
def Writer.uncaches : Writer → Option Key
  | .released key _ | .clearing key _ => some key
  | _ => Option.none

/-- The key that a release may still have to take out of the snapshot. -/
def Writer.withdraws : Writer → Option Key
  | .released key _ | .clearing key _ | .publishing key _ => some key
  | _ => Option.none

namespace KeyState

/-- References cover the leases, and a key without any is neither published nor
cached, except while its release is under way. -/
structure Guarded (s : KeyState) : Prop where
  counted : ∀ key, s.leases.count key + s.writer.owes key ≤ s.conn.refs key
  removed : ∀ key, s.writer.removed = some key → s.conn.refs key = 0
  snapshot : ∀ key ∈ s.conn.keySet, 0 < s.conn.refs key ∨ s.writer.withdraws = some key
  cached : ∀ key, s.conn.lastKey = some key → 0 < s.conn.refs key ∨ s.writer.uncaches = some key

theorem guarded_start (peers : List PeerKey) : (start peers).Guarded where
  counted _ := Nat.zero_le _
  removed _ := nofun
  snapshot key listed := .inl (((wrap_published peers).mem_keySet key).mp listed)
  cached key cached :=
    .inl (((wrap_published peers).mem_keySet key).mp ((wrap_published peers).cached key cached))

section Invariants

variable {s after : KeyState} {report : KeyReport}

theorem dropReceiveKeyLocked_refs (c : SalamanderConn) (key other : Key) :
    (c.dropReceiveKeyLocked key).refs other = c.refs other - if other = key then 1 else 0 := by
  have released := releaseReceiveKey_refs c key other
  exact released

variable {key : Key} {taken : KeyStep}

theorem refs_of_published {c : SalamanderConn} (listed : key ∈ c.publishReceiveKeysLocked.keySet) :
    0 < c.refs key := by
  have counted := (List.mem_filter.mp listed).2
  simp only [ne_eq, decide_not, Bool.not_eq_true', decide_eq_false_iff_not] at counted
  exact Nat.pos_of_ne_zero counted

theorem resolve_idle {kept : Prop} {other : Key} (held : kept ∨ none = some other) : kept :=
  held.resolve_right (Option.some_ne_none other).symm

theorem Guarded.acquire (guarded : s.Guarded) (free : s.writer = .none) (key : Key) :
    Guarded { s with
      conn := s.conn.addReceiveKeyLocked key, writer := .acquired key } := by
  refine ⟨?_, fun _ idle => resolve_idle (.inr idle), ?_, ?_⟩
  · intro other
    have counted := guarded.counted other
    rw [addReceiveKeyLocked_refs]
    simp only [Writer.owes]
    omega
  · intro other listed
    have kept := guarded.snapshot other listed
    rw [free] at kept
    rw [addReceiveKeyLocked_refs]
    have positive := resolve_idle kept
    omega
  · intro other cached
    have kept := guarded.cached other cached
    rw [free] at kept
    rw [addReceiveKeyLocked_refs]
    have positive := resolve_idle kept
    omega

theorem Guarded.release (guarded : s.Guarded) (free : s.writer = .none) (leased : key ∈ s.leases) :
    Guarded { s with
      conn := s.conn.dropReceiveKeyLocked key, leases := s.leases.erase key
      writer := .released key (s.conn.refs key ≤ 1) } := by
  have left_ : ∀ other, 0 < s.conn.refs other →
      0 < (s.conn.dropReceiveKeyLocked key).refs other ∨ some key = some other := by
    intro other positive
    rw [dropReceiveKeyLocked_refs]
    by_cases same : other = key
    · exact .inr (congrArg some same.symm)
    · rw [if_neg same]
      exact .inl positive
  refine ⟨?_, ?_, ?_, ?_⟩
  · intro other
    have counted := guarded.counted other
    change (s.leases.erase key).count other + 0 ≤ (s.conn.dropReceiveKeyLocked key).refs other
    rw [dropReceiveKeyLocked_refs, List.count_erase]
    by_cases same : other = key
    · subst same
      simp only [beq_self_eq_true, if_true]
      omega
    · simp only [beq_iff_eq, Ne.symm same, same, if_false]
      omega
  · intro other removed
    by_cases last : s.conn.refs key ≤ 1
    · simp only [last, decide_true, Writer.removed, Option.some.injEq] at removed
      subst removed
      rw [dropReceiveKeyLocked_refs, if_pos rfl]
      omega
    · simp [last, Writer.removed] at removed
  · intro other listed
    rw [dropReceiveKeyLocked_keySet] at listed
    have kept := guarded.snapshot other listed
    rw [free] at kept
    exact left_ other (resolve_idle kept)
  · intro other cached
    rw [dropReceiveKeyLocked_lastKey] at cached
    have kept := guarded.cached other cached
    rw [free] at kept
    exact left_ other (resolve_idle kept)

theorem Guarded.write (guarded : s.Guarded) (stepped : s.write = some (report, after)) :
    after.Guarded := by
  obtain ⟨conn, leases, writer, reader⟩ := s
  obtain ⟨counted, removed, snapshot, cached⟩ := guarded
  cases writer with
  | none => cases stepped
  | acquired key =>
    cases stepped
    refine ⟨counted, fun _ idle => resolve_idle (.inr idle),
      fun other listed => .inl (refs_of_published listed), ?_⟩
    exact fun other last => .inl (resolve_idle (cached other last))
  | published key =>
    cases stepped
    refine ⟨?_, fun _ idle => resolve_idle (.inr idle), ?_, ?_⟩
    · intro other
      have kept := counted other
      simp only [Writer.owes, List.count_append, List.count_singleton, beq_iff_eq,
        eq_comm (a := key)] at kept ⊢
      exact kept
    · exact fun other listed => .inl (resolve_idle (snapshot other listed))
    · exact fun other last => .inl (resolve_idle (cached other last))
  | released key last =>
    cases stepped
    split
    · exact ⟨counted, by cases last <;> exact removed, snapshot, cached⟩
    · next found =>
      refine ⟨counted, by cases last <;> exact removed, snapshot, ?_⟩
      -- the cached key is another one
      intro other held
      refine .inl ((cached other held).resolve_right ?_)
      rintro ⟨⟩
      exact found held
  | clearing key last =>
    cases stepped
    exact ⟨counted, by cases last <;> exact removed, snapshot,
      fun _ idle => resolve_idle (.inr idle)⟩
  | publishing key last =>
    cases stepped
    refine ⟨counted, by cases last <;> exact removed,
      fun other listed => .inl (refs_of_published listed), ?_⟩
    exact fun other held => .inl (resolve_idle (cached other held))
  | returning key last =>
    cases stepped
    refine ⟨counted, fun _ idle => resolve_idle (.inr idle), ?_, ?_⟩
    · exact fun other listed => .inl (resolve_idle (snapshot other listed))
    · exact fun other held => .inl (resolve_idle (cached other held))

/-- What the reader leaves alone. -/
theorem read_spec (stepped : s.read digests = some (report, after)) :
    (∃ reader, after = { s with reader }) ∨ ∃ plain key, s.reader = .storing plain key ∧
        after = { s with
          conn := { s.conn with lastKey := some key }
          reader := .returning (some (plain, key)) } := by
  obtain ⟨conn, leases, writer, reader⟩ := s
  cases reader with
  | idle => cases stepped
  | storing plain key =>
    cases stepped
    exact .inr ⟨plain, key, rfl, rfl⟩
  | _ =>
    cases stepped
    exact .inl ⟨_, rfl⟩

theorem read_report (stepped : s.read digests = some (report, after)) :
    report ≠ .started ∧ ∀ key last, report ≠ .released key last := by
  obtain ⟨conn, leases, writer, reader⟩ := s
  cases reader with
  | idle => cases stepped
  | returning result =>
    cases stepped
    cases result with
    | none | some => exact ⟨nofun, fun _ _ => nofun⟩
  | _ =>
    cases stepped
    exact ⟨nofun, fun _ _ => nofun⟩

theorem Guarded.step (guarded : s.Guarded) (prompt : s.Prompt taken)
    (stepped : s.step digests taken = some (report, after)) : after.Guarded := by
  cases taken with
  | acquire key =>
    simp only [KeyState.step] at stepped
    split at stepped
    next free =>
      cases stepped
      exact guarded.acquire free key
    · cases stepped
  | release key =>
    simp only [KeyState.step] at stepped
    split at stepped
    next free =>
      cases stepped
      exact guarded.release free.1 free.2
    · cases stepped
  | write => exact guarded.write stepped
  | decode packet capacity =>
    simp only [KeyState.step] at stepped
    split at stepped
    · cases stepped
      exact { guarded with }
    · cases stepped
  | read =>
    rcases read_spec stepped with ⟨reader, rfl⟩ | ⟨plain, key, storing, rfl⟩
    · exact { guarded with }
    · refine { guarded with cached := ?_ }
      rintro _ ⟨⟩
      simp only [Prompt, storing] at prompt
      rcases prompt with counted | ⟨last, writer⟩
      · exact .inl counted
      · right
        rw [writer]
        rfl

theorem Guarded.runs {reports : List KeyReport} (guarded : s.Guarded)
    (runs : Runs digests Prompt s reports after) : after.Guarded := by
  induction runs with
  | refl => exact guarded
  | step taken may stepped rest ih => exact ih (guarded.step may stepped)

/-! ## Released keys -/

/-- The key has no reference, and none is about to come or go. -/
structure Gone (key : Key) (s : KeyState) : Prop where
  unreferenced : s.conn.refs key = 0
  unconcerned : s.writer.key ≠ some key

theorem write_spec (stepped : s.write = some (report, after)) :
    after.conn.refs = s.conn.refs ∧ after.reader = s.reader ∧
      (after.writer.key = s.writer.key ∨ after.writer = .none) ∧
      (report = .silent ∨ ∃ key last, s.writer = .returning key last ∧
        after.writer = .none ∧ report = .released key last) := by
  obtain ⟨conn, leases, writer, reader⟩ := s
  cases writer with
  | none => cases stepped
  | released key last =>
    cases stepped
    refine ⟨rfl, rfl, .inl ?_, .inl rfl⟩
    split <;> rfl
  | published key =>
    cases stepped
    exact ⟨rfl, rfl, .inr rfl, .inl rfl⟩
  | returning key last =>
    cases stepped
    exact ⟨rfl, rfl, .inr rfl, .inr ⟨key, last, rfl, rfl, rfl⟩⟩
  | _ =>
    cases stepped
    exact ⟨rfl, rfl, .inl rfl, .inl rfl⟩

theorem gone_of_released (guarded : s.Guarded)
    (stepped : s.step digests taken = some (.released key true, after)) : after.Gone key := by
  cases taken with
  | acquire | release | decode =>
    simp only [KeyState.step] at stepped
    split at stepped <;> cases stepped
  | read => exact ((read_report stepped).2 key true rfl).elim
  | write =>
    obtain ⟨refs, -, -, shown⟩ := write_spec stepped
    rcases shown with silent | ⟨other, last, returning, free, same⟩
    · cases silent
    · cases same
      have removed := guarded.removed key (by rw [returning]; rfl)
      refine ⟨refs ▸ removed, ?_⟩
      rw [free]
      exact nofun

section

variable (gone : s.Gone key) (guarded : s.Guarded)

include gone guarded

theorem Gone.step (stepped : s.step digests taken = some (report, after))
    (unacquired : report ≠ .acquiring key) : after.Gone key := by
  cases taken with
  | acquire other =>
    simp only [KeyState.step] at stepped
    split at stepped
    · cases stepped
      have different : key ≠ other := fun same => unacquired (same ▸ rfl)
      refine ⟨?_, fun same => different (Option.some.inj same).symm⟩
      rw [addReceiveKeyLocked_refs, if_neg different]
      exact gone.unreferenced
    · cases stepped
  | release other =>
    simp only [KeyState.step] at stepped
    split at stepped
    next free =>
      cases stepped
      -- a key with a lease has a reference
      have different : key ≠ other := by
        rintro rfl
        have counted := guarded.counted key
        have leased := List.count_pos_iff.mpr free.2
        rw [gone.unreferenced] at counted
        omega
      refine ⟨?_, fun same => different (Option.some.inj same).symm⟩
      rw [dropReceiveKeyLocked_refs, gone.unreferenced, Nat.zero_sub]
    · cases stepped
  | write =>
    obtain ⟨refs, -, writer, -⟩ := write_spec stepped
    refine ⟨refs ▸ gone.unreferenced, ?_⟩
    rcases writer with same | free
    · rw [same]
      exact gone.unconcerned
    · rw [free]
      exact nofun
  | decode packet capacity =>
    simp only [KeyState.step] at stepped
    split at stepped
    · cases stepped
      exact ⟨gone.unreferenced, gone.unconcerned⟩
    · cases stepped
  | read =>
    rcases read_spec stepped with ⟨reader, rfl⟩ | ⟨plain, other, -, rfl⟩
    · exact ⟨gone.unreferenced, gone.unconcerned⟩
    · exact ⟨gone.unreferenced, gone.unconcerned⟩

theorem Gone.unpublished : key ∉ s.conn.keySet := by
  intro listed
  rcases guarded.snapshot key listed with counted | withdraws
  · rw [gone.unreferenced] at counted
    exact Nat.lt_irrefl _ counted
  · refine gone.unconcerned ?_
    cases place : s.writer <;> simp_all [Writer.withdraws, Writer.key]

theorem Gone.uncached : s.conn.lastKey ≠ some key := by
  intro last
  rcases guarded.cached key last with counted | uncaches
  · rw [gone.unreferenced] at counted
    exact Nat.lt_irrefl _ counted
  · refine gone.unconcerned ?_
    cases place : s.writer <;> simp_all [Writer.uncaches, Writer.key]

end

end Invariants

end KeyState

/-- The call of `decode` will not come to the key by what it has loaded. -/
def Reader.Avoids (key : Key) : Reader → Prop
  | .idle | .started _ _ => True
  | .loaded _ keys | .scanning _ keys => key ∉ keys
  | .storing _ other => other ≠ key
  | .returning result => ∀ plain, result ≠ some (plain, key)

namespace KeyState

section Released

variable {s after : KeyState} {report : KeyReport} {reports : List KeyReport} {key : Key}

theorem avoids_read (gone : s.Gone key) (guarded : s.Guarded) (avoids : s.reader.Avoids key)
    (stepped : s.read digests = some (report, after)) :
    after.reader.Avoids key ∧ report ≠ .decoded key := by
  have unpublished := gone.unpublished guarded
  have uncached := gone.uncached guarded
  obtain ⟨conn, leases, writer, reader⟩ := s
  cases reader with
  | idle => cases stepped
  | started packet capacity =>
    cases stepped
    refine ⟨?_, nofun⟩
    split
    · exact fun _ => nofun
    · exact unpublished
  | loaded packet keys =>
    cases stepped
    refine ⟨?_, nofun⟩
    split
    next other found =>
      rintro plain ⟨⟩
      exact uncached (Option.filter_eq_some_iff.mp found).1
    · exact avoids
  | scanning packet keys =>
    cases stepped
    refine ⟨?_, nofun⟩
    split
    next other found =>
      rintro rfl
      exact avoids (List.mem_of_find?_eq_some found)
    · exact fun _ => nofun
  | storing plain other =>
    cases stepped
    refine ⟨?_, nofun⟩
    rintro _ ⟨⟩
    exact avoids rfl
  | returning result =>
    cases stepped
    refine ⟨trivial, ?_⟩
    cases result with
    | none => exact nofun
    | some result =>
      rintro ⟨⟩
      exact avoids result.1 rfl

theorem avoids_step (gone : s.Gone key) (guarded : s.Guarded) (avoids : s.reader.Avoids key)
    {taken : KeyStep} (stepped : s.step digests taken = some (report, after)) :
    after.reader.Avoids key ∧ report ≠ .decoded key := by
  cases taken with
  | acquire | release =>
    simp only [KeyState.step] at stepped
    split at stepped
    · cases stepped
      exact ⟨avoids, nofun⟩
    · cases stepped
  | write =>
    obtain ⟨-, reader, -, shown⟩ := write_spec stepped
    refine ⟨reader ▸ avoids, ?_⟩
    rcases shown with rfl | ⟨other, last, -, -, rfl⟩
    · exact nofun
    · exact nofun
  | decode packet capacity =>
    simp only [KeyState.step] at stepped
    split at stepped
    · cases stepped
      exact ⟨trivial, nofun⟩
    · cases stepped
  | read => exact avoids_read gone guarded avoids stepped

theorem runs_append {before : List KeyReport}
    (runs : Runs digests allowed s (before ++ reports) after) :
    ∃ mid, Runs digests allowed s before mid ∧ Runs digests allowed mid reports after := by
  induction before generalizing s with
  | nil => exact ⟨s, .refl, runs⟩
  | cons first rest ih =>
    cases runs with
    | step taken may stepped runs =>
      obtain ⟨mid, left_, right_⟩ := ih runs
      exact ⟨mid, .step taken may stepped left_, right_⟩

theorem Gone.runs (gone : s.Gone key) (guarded : s.Guarded)
    (runs : Runs digests Prompt s reports after) (unacquired : .acquiring key ∉ reports) :
    after.Gone key := by
  induction runs with
  | refl => exact gone
  | step taken may stepped rest ih =>
    rw [List.mem_cons, not_or] at unacquired
    exact ih (gone.step guarded stepped (Ne.symm unacquired.1)) (guarded.step may stepped)
      unacquired.2

theorem avoids_runs (gone : s.Gone key) (guarded : s.Guarded) (avoids : s.reader.Avoids key)
    (runs : Runs digests Prompt s reports after) (unacquired : .acquiring key ∉ reports) :
    .decoded key ∉ reports := by
  induction runs with
  | refl => exact nofun
  | step taken may stepped rest ih =>
    rw [List.mem_cons, not_or] at unacquired
    obtain ⟨later, shown⟩ := avoids_step gone guarded avoids stepped
    rw [List.mem_cons, not_or]
    exact ⟨Ne.symm shown, ih (gone.step guarded stepped (Ne.symm unacquired.1))
      (guarded.step may stepped) later unacquired.2⟩

theorem avoids_of_started {taken : KeyStep}
    (stepped : s.step digests taken = some (.started, after)) : after.reader.Avoids key := by
  cases taken with
  | acquire | release =>
    simp only [KeyState.step] at stepped
    split at stepped <;> cases stepped
  | write =>
    obtain ⟨-, -, -, shown⟩ := write_spec stepped
    rcases shown with silent | ⟨_, _, -, -, released⟩
    · cases silent
    · cases released
  | decode packet capacity =>
    simp only [KeyState.step] at stepped
    split at stepped
    · cases stepped
      trivial
    · cases stepped
  | read => exact ((read_report stepped).1 rfl).elim

/-- As long as the reader is prompt, a key does not decode after its last release,
in any interleaving. -/
theorem released_key_never_decodes (peers : List PeerKey)
    (runs : Runs digests Prompt (start peers) reports after) :
    ¬ ReleasedKeyDecodes key reports := by
  rintro ⟨before, between, during, rfl, unacquired, alsoDuring⟩
  obtain ⟨mid, first, rest⟩ := runs_append runs
  have guarded := (guarded_start peers).runs first
  cases rest with
  | step taken may stepped rest =>
    have gone := gone_of_released guarded stepped
    have guarded := guarded.step may stepped
    obtain ⟨_, second, rest⟩ := runs_append rest
    have gone := gone.runs guarded second unacquired
    have guarded := guarded.runs second
    cases rest with
    | step taken may stepped rest =>
      have avoids := avoids_runs (gone.step guarded stepped nofun)
        (guarded.step may stepped) (avoids_of_started stepped) rest (by simp [alsoDuring])
      exact avoids (List.mem_append_right _ (List.mem_singleton_self _))

end Released

/-- A hash whose hint and stream are the key itself. -/
def plainDigests : Digests where
  hint key _ := key.bytes.take 8
  stream key _ := key.bytes
  hint_length key _ := key.take_length
  stream_length key _ := key.size

def plainKey : Key := ⟨List.replicate 32 7, rfl⟩

/-- A packet of one byte that has the hint of the key. -/
def plainPacket : Bytes :=
  List.replicate 8 0 ++ List.replicate 8 7 ++ [5]

/-- A decoding that ends before the key is released, and one after. -/
theorem released_key_never_decodes_in_turn : ¬ ReleasedKeyDecodes plainKey
      [.acquiring plainKey, .silent, .silent, .started, .silent, .silent, .silent, .silent,
        .decoded plainKey, .silent, .silent, .silent, .silent, .released plainKey true,
        .started, .silent, .silent, .silent, .rejected] := by
  have shown : (runAll plainDigests Prompt
      [.acquire plainKey, .write, .write, .decode plainPacket 1, .read, .read, .read, .read,
        .read, .release plainKey, .write, .write, .write, .write, .decode plainPacket 1,
        .read, .read, .read, .read] (start [])).map Prod.fst = some
      [.acquiring plainKey, .silent, .silent, .started, .silent, .silent, .silent, .silent,
        .decoded plainKey, .silent, .silent, .silent, .silent, .released plainKey true,
        .started, .silent, .silent, .silent, .rejected] := by
    decide +kernel
  obtain ⟨after, runs⟩ := runs_of_runAll shown
  exact released_key_never_decodes [] runs

/-- The reader has found the key when it is released, and caches it after the
release has returned. -/
theorem released_key_decodes_from_cache :
    ∃ reports after, Runs plainDigests (fun _ _ => True) (start []) reports after ∧
      ReleasedKeyDecodes plainKey reports := by
  have shown : (runAll plainDigests (fun _ _ => True)
      [.acquire plainKey, .write, .write, .decode plainPacket 1, .read, .read, .read,
        .release plainKey, .write, .write, .write, .read, .read,
        .decode plainPacket 1, .read, .read, .read] (start [])).map Prod.fst = some
      ([.acquiring plainKey, .silent, .silent, .started, .silent, .silent, .silent,
        .silent, .silent, .silent] ++ .released plainKey true ::
        ([.silent, .decoded plainKey] ++ .started ::
          ([.silent, .silent] ++ [.decoded plainKey]))) := by
    decide +kernel
  obtain ⟨after, runs⟩ := runs_of_runAll shown
  exact ⟨_, after, runs, _, _, _, rfl, by decide, by decide⟩

end KeyState

end WgQuic.Obfs
