import WgQuic.Core.PeerNames

/-!
# When a generation is ready

The core takes a generation for authenticated when a packet comes from its
endpoint that entered after the endpoint was set.  A packet that was already
waiting does not count, not even from the same endpoint.
-/

namespace WgQuic.Core

open List WgQuic.Bind Obfs Instance AList

/-- A generation, with the endpoint it stands for. -/
def PeerStatus.choice (status : PeerStatus) : Nat × Option AddrPort :=
  (status.generation, status.selectedEndpoint)

namespace Instance

variable {i after : Instance} {publicKey : String}

/-- How a call for a generation ends. -/
inductive Chooses (i : Instance) (publicKey : String) (generation : Nat)
    (choice : Option AddrPort) : Errors → Instance → Prop where
  | refused {err : CoreError} {errs : Errors} {after : Instance} (peers : after.peers = i.peers)
      (sequence : after.bind.receiveSequence = i.bind.receiveSequence) :
      Chooses i publicKey generation choice (err :: errs) after
  | already {peer : PeerRuntime} (found : i.peers.lookup publicKey = some peer)
      (same : generation = peer.status.generation)
      (current : peer.status.selectedEndpoint = choice) :
      Chooses i publicKey generation choice [] i
  | chosen {peer next : PeerRuntime} {after : Instance}
      (found : i.peers.lookup publicKey = some peer)
      (newer : peer.status.generation < generation)
      (peers : after.peers = i.peers.insert publicKey next)
      (status : next.status = { selectedEndpoint := choice, generation })
      (activation : next.activationReceiveSequence = i.bind.receiveSequence)
      (sequence : after.bind.receiveSequence = i.bind.receiveSequence) :
      Chooses i publicKey generation choice [] after

variable {generation : Nat} {fault : Fault} {endpoint : Option AddrPort}

theorem checkGeneration_same
    (checked : i.checkGeneration publicKey endpoint generation = .ok none) :
    ∃ peer, i.peers.lookup publicKey = some peer ∧ generation = peer.status.generation ∧
      peer.status.selectedEndpoint = endpoint := by
  unfold checkGeneration at checked
  split at checked
  · cases checked
  split at checked
  · cases checked
  next peer found =>
  split at checked
  · cases checked
  split at checked
  · next same =>
    split at checked
    · next current => exact ⟨peer, found, same, current⟩
    · cases checked
  · cases checked

variable {bind later : EndpointBind}

theorem acquireEndpoint_sequence {peer : PeerRuntime}
    {endpoint : AddrPort} {result : Except CoreError (Option Nat × Nat)}
    (done : acquireEndpoint bind peer endpoint = (result, later)) :
    later.receiveSequence = bind.receiveSequence := by
  cases acquireEndpoint_acquires done <;> rfl

theorem setPeerEndpoint_sequence {endpoint : AddrPort} {object : Nat}
    (done : Device.setPeerEndpoint bind publicKey endpoint fault = .ok (object, later)) :
    later.receiveSequence = bind.receiveSequence := by
  unfold Device.setPeerEndpoint at done
  split at done
  · cases done
  · cases done
  split at done
  · cases done
  · rw [Except.ok.injEq] at done
    have same := congrArg (fun parsed => parsed.2.receiveSequence) done
    refine same.symm.trans ?_
    unfold EndpointBind.parseEndpoint
    split
    · split <;> rfl
    · rfl

theorem setPeerEndpoint_chooses {errs : Errors}
    (done : i.setPeerEndpoint publicKey endpoint generation fault = (errs, after)) :
    Chooses i publicKey generation (endpoint.map canonicalAddrPort) errs after := by
  unfold setPeerEndpoint at done
  split at done
  · cases done
    exact .refused rfl rfl
  next endpoint =>
  split at done
  · cases done
    exact .refused rfl rfl
  unfold installPeerEndpoint at done
  split at done
  · cases done
    exact .refused rfl rfl
  · next checked =>
    cases done
    obtain ⟨peer, found, same, current⟩ := checkGeneration_same checked
    exact .already found same current
  next peer checked =>
  obtain ⟨found, newer⟩ := checkGeneration_ok checked
  split at done
  · next acquired =>
    cases done
    exact .refused rfl (acquireEndpoint_sequence acquired)
  next release fecRelease bind acquired =>
  have sequence := acquireEndpoint_sequence acquired
  split at done
  · cases done
    refine .refused ?_ ?_
    · rw [(releaseFECPolicy_frame _).peers, (releaseAssociation_frame _).peers]
    · rw [← sequence]
      cases release <;> rfl
  next object later set =>
  cases done
  have sequence' := (setPeerEndpoint_sequence set).trans sequence
  exact .chosen found newer rfl rfl sequence' sequence'

theorem clearPeerEndpoint_chooses {errs : Errors}
    (done : i.clearPeerEndpoint publicKey generation fault = (errs, after)) :
    Chooses i publicKey generation none errs after := by
  unfold clearPeerEndpoint at done
  split at done
  · cases done
    exact .refused rfl rfl
  · next checked =>
    cases done
    obtain ⟨peer, found, same, current⟩ := checkGeneration_same checked
    exact .already found same current
  next peer checked =>
  obtain ⟨found, newer⟩ := checkGeneration_ok checked
  split at done
  · cases done
    exact .refused rfl rfl
  · cases done
    exact .chosen found newer rfl rfl rfl rfl

theorem finalizePeerEndpoint_sequence (publicKey : String) (generation : Nat) :
    (i.finalizePeerEndpoint publicKey generation).2.bind.receiveSequence =
      i.bind.receiveSequence := by
  unfold finalizePeerEndpoint
  split
  · rfl
  split
  · rfl
  split
  · rfl
  · exact (settleEndpoints_frame _ _ _ _).sequence

/-- A packet does not count, or it makes the generation of its peer ready. -/
theorem recordAuthenticatedReceive_cases (event : AuthenticatedReceive) :
    i.recordAuthenticatedReceive event = i ∨
      ∃ peer, i.peers.lookup (String.ofList (Base64.encode event.publicKey)) = some peer ∧
        peer.status.generation ≠ 0 ∧ peer.status.selectedEndpoint = some event.endpoint ∧
        event.receiveSequence > peer.activationReceiveSequence ∧
        i.recordAuthenticatedReceive event =
          i.setPeer (String.ofList (Base64.encode event.publicKey)) { peer with
            status := { peer.status with
              authenticatedGeneration := peer.status.generation
              authenticatedEndpoint := some event.endpoint } } := by
  unfold recordAuthenticatedReceive
  dsimp only
  split
  · exact .inl rfl
  next peer found =>
  split
  · next counts => exact .inr ⟨peer, found, counts.2.1, counts.2.2.1, counts.2.2.2, rfl⟩
  · exact .inl rfl

end Instance

/-! ## The core and its incoming packets -/

inductive PathEvent where
  | install (publicKey : String) (endpoint : Option AddrPort) (generation : Nat) (fault : Fault)
  | clear (publicKey : String) (generation : Nat) (fault : Fault)
  | finalize (publicKey : String) (generation : Nat)
  /-- A packet enters the bind. -/
  | ingress (remote : AddrPort)
  /-- WireGuard has authenticated what came with a packet that entered before. -/
  | authenticate (publicKey : NoisePublicKey) (packet : Nat)

inductive PathEntry where
  /-- A call for a generation succeeded, after that many packets. -/
  | accepted (publicKey : String) (generation : Nat) (choice : Option AddrPort) (snapshot : Nat)
  | authenticated (publicKey : String) (packet : Nat)

structure Pathway where
  core : Instance
  /-- Where the packets that have entered came from. -/
  packets : List AddrPort := []
  log : List PathEntry := []

namespace Pathway

/-- The number that a packet is given when it enters. -/
def sequenceOf (packet : Nat) : UInt64 := UInt64.ofNat (packet + 1)

def accept (w : Pathway) (publicKey : String) (generation : Nat) (choice : Option AddrPort) :
    Errors × Instance → Pathway
  | ([], core) =>
    { w with
      core
      log := w.log ++ [.accepted publicKey generation choice w.packets.length] }
  | (_ :: _, core) => { w with core }

def step (w : Pathway) : PathEvent → Pathway
  | .install publicKey endpoint generation fault =>
    w.accept publicKey generation (endpoint.map canonicalAddrPort)
      (w.core.setPeerEndpoint publicKey endpoint generation fault)
  | .clear publicKey generation fault =>
    w.accept publicKey generation none (w.core.clearPeerEndpoint publicKey generation fault)
  | .finalize publicKey generation =>
    { w with core := (w.core.finalizePeerEndpoint publicKey generation).2 }
  | .ingress remote =>
    { w with
      core := w.core.step .receive
      packets := w.packets ++ [canonicalAddrPort remote] }
  | .authenticate publicKey packet =>
    match w.packets[packet]? with
    | none => w
    | some remote =>
      { w with
        core := w.core.recordAuthenticatedReceive ⟨publicKey, remote, sequenceOf packet⟩
        log := w.log ++ [.authenticated (String.ofList (Base64.encode publicKey)) packet] }

def run (w : Pathway) (events : List PathEvent) : Pathway :=
  events.foldl step w

variable {w later : Pathway} {publicKey : String} {peer : PeerRuntime}

/-! ## What is recorded of a generation -/

/-- A peer without a generation, or with one that a call was accepted for; since
then a packet from its endpoint was authenticated if the peer says so. -/
inductive Stage (w : Pathway) (publicKey : String) (status : PeerStatus)
    (activation : UInt64) : Prop where
  | unset (generation : status.generation = 0) (unready : status.authenticatedGeneration = 0)
  | set (before after : List PathEntry) (snapshot : Nat)
      (log : w.log = before ++
        .accepted publicKey status.generation status.selectedEndpoint snapshot :: after)
      (first : ∀ choice earlier, .accepted publicKey status.generation choice earlier ∉ before)
      (past : snapshot ≤ w.packets.length) (activated : activation = UInt64.ofNat snapshot)
      (ready : status.authenticatedGeneration = 0 ∨
        (status.authenticatedGeneration = status.generation ∧ ∃ packet remote,
          .authenticated publicKey packet ∈ after ∧ status.selectedEndpoint = some remote ∧
          w.packets[packet]? = some remote ∧ (w.packets.length < 2 ^ 64 → snapshot ≤ packet)))

variable {packets : List AddrPort}

theorem Stage.extend {status : PeerStatus} {activation : UInt64}
    (stage : Stage w publicKey status activation) {entries : List PathEntry}
    (log : later.log = w.log ++ entries)
    (more : later.packets = w.packets ++ packets) : Stage later publicKey status activation := by
  cases stage with
  | unset generation unready => exact .unset generation unready
  | set before after snapshot split first past activated ready =>
    refine .set before (after ++ entries) snapshot ?_ first ?_ activated ?_
    · rw [log, split, append_assoc, cons_append]
    · rw [more, length_append]
      omega
    · rcases ready with unready | ⟨same, packet, remote, listed, selected, came, order⟩
      · exact .inl unready
      · refine .inr ⟨same, packet, remote, mem_append_left _ listed, selected, ?_, ?_⟩
        · rw [more, List.getElem?_append_left (List.getElem?_eq_some_iff.mp came).1]
          exact came
        · intro short
          rw [more, length_append] at short
          exact order (by omega)

structure Recorded (w : Pathway) : Prop where
  sequence : w.core.bind.receiveSequence = UInt64.ofNat w.packets.length
  entries : ∀ publicKey generation choice snapshot,
    .accepted publicKey generation choice snapshot ∈ w.log →
    ∃ peer, w.core.peers.lookup publicKey = some peer ∧ generation ≤ peer.status.generation ∧
      (generation = peer.status.generation → choice = peer.status.selectedEndpoint)
  bound : ∀ publicKey generation choice other snapshot earlier,
    .accepted publicKey generation choice snapshot ∈ w.log →
    .accepted publicKey generation other earlier ∈ w.log → choice = other
  peers : ∀ publicKey peer, w.core.peers.lookup publicKey = some peer →
    Stage w publicKey peer.status peer.activationReceiveSequence

/-- Nothing is accepted, and every peer has the generation it had. -/
theorem Recorded.extend (recorded : w.Recorded)
    (sequence : later.core.bind.receiveSequence = UInt64.ofNat later.packets.length)
    (log : ∀ publicKey generation choice snapshot,
      .accepted publicKey generation choice snapshot ∈ later.log →
      .accepted publicKey generation choice snapshot ∈ w.log)
    (choices : ∀ publicKey,
      (later.core.peers.lookup publicKey).map (fun peer => peer.status.choice) =
        (w.core.peers.lookup publicKey).map fun peer => peer.status.choice)
    (peers : ∀ publicKey peer, later.core.peers.lookup publicKey = some peer →
      Stage later publicKey peer.status peer.activationReceiveSequence) : later.Recorded := by
  refine ⟨sequence, ?_, ?_, peers⟩
  · intro publicKey generation choice snapshot listed
    obtain ⟨peer, found, le, current⟩ := recorded.entries _ _ _ _ (log _ _ _ _ listed)
    have same := choices publicKey
    rw [found, Option.map_some, Option.map_eq_some_iff] at same
    obtain ⟨now, lookup, equal⟩ := same
    rw [PeerStatus.choice, PeerStatus.choice, Prod.mk.injEq] at equal
    refine ⟨now, lookup, by rw [equal.1]; exact le, ?_⟩
    rw [equal.1, equal.2]
    exact current
  · intro publicKey generation choice other snapshot earlier listed listedToo
    exact recorded.bound _ _ _ _ _ _ (log _ _ _ _ listed) (log _ _ _ _ listedToo)

theorem accept_ok (w : Pathway) (publicKey : String) (generation : Nat)
    (choice : Option AddrPort) (core : Instance) :
    w.accept publicKey generation choice ([], core) = { w with
        core
        log := w.log ++ [.accepted publicKey generation choice w.packets.length] } :=
  rfl

variable {choice : Option AddrPort} {generation : Nat}

section

variable (recorded : w.Recorded)

include recorded

/-- One more call is in the log, for the generation that its peer now has. -/
theorem Recorded.bound_append {snapshot : Nat}
    (agrees : ∀ other earlier, .accepted publicKey generation other earlier ∈ w.log → choice =
      other) (name : String) (number : Nat) (first second : Option AddrPort) (one two : Nat)
    (listed : .accepted name number first one ∈ w.log ++ [.accepted publicKey generation choice
      snapshot])
    (listedToo : .accepted name number second two ∈ w.log ++ [.accepted publicKey generation choice
      snapshot]) : first = second := by
  rw [mem_append, mem_singleton] at listed listedToo
  rcases listed with listed | same <;> rcases listedToo with listedToo | sameToo
  · exact recorded.bound _ _ _ _ _ _ listed listedToo
  · cases sameToo
    exact (agrees _ _ listed).symm
  · cases same
    exact agrees _ _ listedToo
  · cases same
    cases sameToo
    rfl

/-- A call for a generation is accepted, or changes nothing. -/
theorem Recorded.accept {errs : Errors} {core : Instance}
    (chooses : w.core.Chooses publicKey generation choice errs core) :
    (w.accept publicKey generation choice (errs, core)).Recorded := by
  have packets : w.packets = w.packets ++ [] := (append_nil _).symm
  cases chooses with
  | refused peers sequence =>
    have log : w.log = w.log ++ [] := (append_nil _).symm
    refine recorded.extend (sequence.trans recorded.sequence) (fun _ _ _ _ listed => listed) ?_ ?_
    · intro name
      exact congrArg
        (fun known : AList (fun _ : String => PeerRuntime) => (known.lookup name).map _) peers
    · intro name peer found
      rw [show (w.accept publicKey generation choice (_ :: _, core)).core.peers = w.core.peers
        from peers] at found
      exact (recorded.peers name peer found).extend log packets
  | @already peer found same current =>
    refine ⟨recorded.sequence, ?_, ?_, ?_⟩
    · intro name number other snapshot listed
      rcases mem_append.mp listed with listed | listed
      · exact recorded.entries _ _ _ _ listed
      · cases mem_singleton.mp listed
        exact ⟨peer, found, same.le, fun _ => current.symm⟩
    · refine recorded.bound_append ?_
      intro other earlier listed
      obtain ⟨now, lookup, _, chosen⟩ := recorded.entries _ _ _ _ listed
      cases found.symm.trans lookup
      exact current.symm.trans (chosen same).symm
    · intro name peer found
      exact (recorded.peers name peer found).extend rfl packets
  | @chosen peer next _ found newer peers status activation sequence =>
    have fresh : ∀ other earlier, .accepted publicKey generation other earlier ∉ w.log := by
      intro other earlier listed
      obtain ⟨now, lookup, le, _⟩ := recorded.entries _ _ _ _ listed
      cases found.symm.trans lookup
      omega
    rw [accept_ok]
    refine ⟨sequence.trans recorded.sequence, ?_, ?_, ?_⟩
    · intro name number other snapshot listed
      rw [peers]
      rcases mem_append.mp listed with listed | listed
      · obtain ⟨now, lookup, le, chosen⟩ := recorded.entries _ _ _ _ listed
        by_cases here : name = publicKey
        · subst here
          cases found.symm.trans lookup
          refine ⟨next, lookup_insert _, ?_, ?_⟩
          · rw [status]
            exact le.trans newer.le
          · rw [status]
            dsimp only
            omega
        · exact ⟨now, (lookup_insert_ne here).trans lookup, le, chosen⟩
      · cases mem_singleton.mp listed
        refine ⟨next, lookup_insert _, ?_, ?_⟩
        · rw [status]
        · rw [status]
          exact fun _ => rfl
    · exact recorded.bound_append fun other earlier listed => absurd listed (fresh _ _)
    · intro name now lookup
      rw [peers] at lookup
      rcases lookup_insert_cases lookup with ⟨rfl, rfl⟩ | ⟨_, lookup⟩
      · refine .set w.log [] w.packets.length ?_ ?_ le_rfl
          (activation.trans recorded.sequence) (.inl ?_)
        · rw [status]
        · rw [status]
          exact fresh
        · rw [status]
      · exact (recorded.peers name now lookup).extend rfl packets

theorem Recorded.finalize (publicKey : String) (generation : Nat) :
    (w.step (.finalize publicKey generation)).Recorded := by
  have kept : w.core.Preserves (fun peer => (peer.status, peer.activationReceiveSequence))
      (w.core.finalizePeerEndpoint publicKey generation).2 :=
    finalizePeerEndpoint_preserves publicKey generation fun _ => rfl
  have sequence := finalizePeerEndpoint_sequence (i := w.core) publicKey generation
  refine recorded.extend (sequence.trans recorded.sequence) (fun _ _ _ _ listed => listed) ?_ ?_
  · intro name
    have same := congrArg (Option.map fun part => part.1.choice) (kept.peers name)
    rwa [Option.map_map, Option.map_map] at same
  · intro name peer found
    obtain ⟨before, lookup, same⟩ := kept.lookup found
    rw [Prod.mk.injEq] at same
    rw [← same.1, ← same.2]
    exact (recorded.peers name before lookup).extend (append_nil _).symm (append_nil _).symm

theorem Recorded.ingress (remote : AddrPort) : (w.step (.ingress remote)).Recorded := by
  refine recorded.extend ?_ (fun _ _ _ _ listed => listed) (fun _ => rfl) ?_
  · change w.core.bind.receiveSequence + 1 = _
    rw [recorded.sequence, step, length_append, length_singleton]
    exact (UInt64.ofNat_add _ _).symm
  · intro name peer found
    exact (recorded.peers name peer found).extend (append_nil _).symm rfl

end

/-- The number of a packet says that it came after the snapshot, as long as the
numbers do not start again. -/
theorem le_of_sequenceOf {snapshot packet count : Nat} (short : count < 2 ^ 64)
    (past : snapshot ≤ count) (came : packet < count)
    (newer : sequenceOf packet > UInt64.ofNat snapshot) : snapshot ≤ packet := by
  have less := UInt64.lt_iff_toNat_lt.mp newer
  rw [sequenceOf, UInt64.toNat_ofNat', UInt64.toNat_ofNat', Nat.mod_eq_of_lt (by omega),
    Nat.mod_eq_of_lt (by omega)] at less
  omega

/-- The packet is from the endpoint of the generation. -/
theorem Stage.authenticate {status : PeerStatus} {activation : UInt64}
    (stage : Stage w publicKey status activation) {packet : Nat} {remote : AddrPort}
    (came : w.packets[packet]? = some remote) (started : status.generation ≠ 0)
    (selected : status.selectedEndpoint = some remote)
    (newer : sequenceOf packet > activation) (core : Instance) :
    Stage { w with core, log := w.log ++ [.authenticated publicKey packet] } publicKey
      { status with
        authenticatedGeneration := status.generation
        authenticatedEndpoint := some remote } activation := by
  cases stage with
  | unset generation unready => exact absurd generation started
  | set before after snapshot log first past activated ready =>
    refine .set before (after ++ [.authenticated publicKey packet]) snapshot ?_ first past
      activated (.inr ⟨rfl, packet, remote, ?_, selected, came, ?_⟩)
    · rw [log, append_assoc, cons_append]
    · exact mem_append_right _ (mem_singleton.mpr rfl)
    · intro short
      rw [activated] at newer
      exact le_of_sequenceOf short past (List.getElem?_eq_some_iff.mp came).1 newer

theorem Recorded.authenticate (recorded : w.Recorded) (key : NoisePublicKey) (packet : Nat) :
    (w.step (.authenticate key packet)).Recorded := by
  unfold step
  dsimp only
  split
  · exact recorded
  next remote came =>
  have old : ∀ name generation choice snapshot, PathEntry.accepted name generation choice snapshot ∈
        w.log ++ [.authenticated (String.ofList (Base64.encode key)) packet] →
      .accepted name generation choice snapshot ∈ w.log := by
    intro name generation choice snapshot listed
    rcases mem_append.mp listed with listed | listed
    · exact listed
    · cases mem_singleton.mp listed
  have packets : w.packets = w.packets ++ [] := (append_nil _).symm
  rcases recordAuthenticatedReceive_cases (i := w.core) ⟨key, remote, sequenceOf packet⟩ with
    same | ⟨peer, found, started, selected, newer, same⟩
  · rw [same]
    refine recorded.extend recorded.sequence old (fun _ => rfl) ?_
    intro name peer found
    exact (recorded.peers name peer found).extend rfl packets
  · rw [same]
    refine recorded.extend recorded.sequence old ?_ ?_
    · have choices : ∀ other : PeerRuntime, other.status.choice = peer.status.choice →
          w.core.Preserves (fun peer => peer.status.choice) (w.core.setPeer _ other) :=
        fun other same => preserves_setPeer found same
      refine Instance.Preserves.peers (choices _ ?_)
      rfl
    · intro name now lookup
      rcases lookup_insert_cases lookup with ⟨rfl, rfl⟩ | ⟨_, lookup⟩
      · exact (recorded.peers _ _ found).authenticate came started selected newer _
      · exact (recorded.peers name now lookup).extend rfl packets

theorem Recorded.step (recorded : w.Recorded) (event : PathEvent) : (w.step event).Recorded := by
  cases event with
  | install publicKey endpoint generation fault =>
    exact recorded.accept (setPeerEndpoint_chooses rfl)
  | clear publicKey generation fault =>
    exact recorded.accept (clearPeerEndpoint_chooses rfl)
  | finalize publicKey generation => exact recorded.finalize publicKey generation
  | ingress remote => exact recorded.ingress remote
  | authenticate key packet => exact recorded.authenticate key packet

theorem Recorded.run (recorded : w.Recorded) (events : List PathEvent) :
    (w.run events).Recorded := by
  induction events generalizing w with
  | nil => exact recorded
  | cons event rest ih => exact ih (recorded.step event)

theorem recorded_start {core : Instance} (fresh : core.Fresh) : ({ core } : Pathway).Recorded := by
  refine ⟨fresh.sequence, nofun, nofun, ?_⟩
  intro publicKey peer found
  have status := (fresh.peers publicKey peer found).status
  refine .unset ?_ ?_
  · rw [status]
  · rw [status]

/-- The peer is still there, with no older generation. -/
def Grows (i after : Instance) : Prop :=
  ∀ publicKey peer, i.peers.lookup publicKey = some peer →
    ∃ now, after.peers.lookup publicKey = some now ∧ peer.status.generation ≤ now.status.generation

theorem grows_of_preserves {i after : Instance}
    (choices : i.Preserves (fun peer => peer.status.generation) after) : Grows i after := by
  intro publicKey peer found
  have same := choices.peers publicKey
  rw [found, Option.map_some, Option.map_eq_some_iff] at same
  obtain ⟨now, lookup, equal⟩ := same
  exact ⟨now, lookup, equal.ge⟩

theorem grows_of_chooses {i after : Instance} {errs : Errors}
    (chooses : i.Chooses publicKey generation choice errs after) : Grows i after := by
  intro name peer found
  cases chooses with
  | refused peers sequence =>
    rw [peers]
    exact ⟨peer, found, le_rfl⟩
  | already _ _ _ => exact ⟨peer, found, le_rfl⟩
  | @chosen old next _ lookup newer peers status _ _ =>
    rw [peers]
    by_cases here : name = publicKey
    · subst here
      cases lookup.symm.trans found
      refine ⟨next, lookup_insert _, ?_⟩
      rw [status]
      exact newer.le
    · exact ⟨peer, (lookup_insert_ne here).trans found, le_rfl⟩

theorem accept_core (w : Pathway) (publicKey : String) (generation : Nat)
    (choice : Option AddrPort) (answer : Errors × Instance) :
    (w.accept publicKey generation choice answer).core = answer.2 := by
  obtain ⟨_ | _, core⟩ := answer <;> rfl

theorem step_grows (w : Pathway) (event : PathEvent) : Grows w.core (w.step event).core := by
  cases event with
  | install publicKey endpoint generation fault =>
    rw [step, accept_core]
    exact grows_of_chooses (setPeerEndpoint_chooses rfl)
  | clear publicKey generation fault =>
    rw [step, accept_core]
    exact grows_of_chooses (clearPeerEndpoint_chooses rfl)
  | finalize publicKey generation =>
    exact grows_of_preserves (finalizePeerEndpoint_preserves publicKey generation fun _ => rfl)
  | ingress remote => exact fun _ peer found => ⟨peer, found, le_rfl⟩
  | authenticate key packet =>
    unfold step
    dsimp only
    split
    · exact fun _ peer found => ⟨peer, found, le_rfl⟩
    next remote came =>
    rcases recordAuthenticatedReceive_cases (i := w.core)
        ⟨key, remote, sequenceOf packet⟩ with same | ⟨peer, found, _, _, _, same⟩
    · rw [same]
      exact fun _ peer found => ⟨peer, found, le_rfl⟩
    · rw [same]
      exact grows_of_preserves (preserves_setPeer found rfl)

theorem run_grows (w : Pathway) (events : List PathEvent) : Grows w.core (w.run events).core := by
  induction events generalizing w with
  | nil => exact fun _ peer found => ⟨peer, found, le_rfl⟩
  | cons event rest ih =>
    intro publicKey peer found
    obtain ⟨next, lookup, le⟩ := step_grows w event publicKey peer found
    obtain ⟨now, lookup, le'⟩ := ih (w.step event) publicKey next lookup
    exact ⟨now, lookup, le.trans le'⟩

/-! ## The barrier -/

/-- A peer is ready for its current generation only. -/
def ReadyForCurrent (w : Pathway) : Prop :=
  ∀ publicKey peer, w.core.peers.lookup publicKey = some peer →
    peer.status.authenticatedGeneration = 0 ∨
      peer.status.authenticatedGeneration = peer.status.generation

/-- Calls that were accepted for one generation of a peer chose the same. -/
def ChoosesOnce (w : Pathway) : Prop :=
  ∀ publicKey generation choice other snapshot earlier,
    .accepted publicKey generation choice snapshot ∈ w.log →
    .accepted publicKey generation other earlier ∈ w.log → choice = other

/-- What made a generation ready: after the call that set it, a packet from its
endpoint was authenticated, and the packet entered after the call's snapshot. -/
def Earned (w : Pathway) (publicKey : String) (generation : Nat) : Prop :=
  ∃ before after remote snapshot packet,
    w.log = before ++ .accepted publicKey generation (some remote) snapshot :: after ∧
    (∀ choice earlier, .accepted publicKey generation choice earlier ∉ before) ∧
    .authenticated publicKey packet ∈ after ∧ w.packets[packet]? = some remote ∧
    snapshot ≤ packet

theorem Earned.entries (earned : w.Earned publicKey generation) :
    ∃ choice snapshot packet, .accepted publicKey generation choice snapshot ∈ w.log ∧
      .authenticated publicKey packet ∈ w.log ∧ snapshot ≤ packet := by
  obtain ⟨before, after, remote, snapshot, packet, log, _, listed, _, order⟩ := earned
  refine ⟨some remote, snapshot, packet, ?_, ?_, order⟩
  · rw [log]
    exact mem_append_right _ mem_cons_self
  · rw [log]
    exact mem_append_right _ (mem_cons_of_mem _ listed)

def Barrier (w : Pathway) : Prop :=
  ∀ publicKey peer, w.core.peers.lookup publicKey = some peer →
    peer.status.authenticatedGeneration ≠ 0 →
    w.Earned publicKey peer.status.authenticatedGeneration

theorem Recorded.readyForCurrent (recorded : w.Recorded) : w.ReadyForCurrent := by
  intro publicKey peer found
  cases recorded.peers publicKey peer found with
  | unset generation unready => exact .inl unready
  | set before after snapshot log first past activated ready =>
    exact ready.imp_right And.left

theorem Recorded.barrier (recorded : w.Recorded) (short : w.packets.length < 2 ^ 64) :
    w.Barrier := by
  intro publicKey peer found ready
  cases recorded.peers publicKey peer found with
  | unset generation unready => exact absurd unready ready
  | set before after snapshot log first past activated why =>
    rcases why with unready | ⟨same, packet, remote, listed, selected, came, order⟩
    · exact absurd unready ready
    · rw [same]
      rw [selected] at log
      exact ⟨before, after, remote, snapshot, packet, log, first, listed, came, order short⟩

/-- Numbers start again after 2⁶⁴ packets; up to then the barrier holds. -/
theorem readiness (settings : TransportSettings) (config : Bind.Config)
    (configured : List ConfiguredPeer) (events more : List PathEvent) :
    let start : Pathway := { core := newInstance settings config configured }
    (start.run events).ReadyForCurrent ∧
      ((start.run events).packets.length < 2 ^ 64 → (start.run events).Barrier) ∧
      Grows (start.run events).core (start.run (events ++ more)).core ∧
      (start.run events).ChoosesOnce := by
  intro start
  have recorded : (start.run events).Recorded :=
    (recorded_start (fresh_newInstance settings config configured)).run events
  refine ⟨recorded.readyForCurrent, recorded.barrier, ?_, recorded.bound⟩
  have later : start.run (events ++ more) = (start.run events).run more := foldl_append
  rw [later]
  exact run_grows _ more

/-! ## When the numbers start again -/

theorem run_ingress (w : Pathway) (remote : AddrPort) (count : Nat) :
    w.run (List.replicate count (.ingress remote)) = { w with
        core := { w.core with
          bind.receiveSequence := w.core.bind.receiveSequence + UInt64.ofNat count }
        packets := w.packets ++ List.replicate count (canonicalAddrPort remote) } := by
  induction count generalizing w with
  | zero =>
    rw [replicate_zero, replicate_zero, append_nil,
      show UInt64.ofNat 0 = 0 from rfl, UInt64.add_zero]
    rfl
  | succ count ih =>
    have numbers : w.core.bind.receiveSequence + 1 + UInt64.ofNat count =
        w.core.bind.receiveSequence + UInt64.ofNat (count + 1) := by
      rw [Nat.add_comm count 1, UInt64.ofNat_add, UInt64.add_assoc]
      rfl
    have packets : w.packets ++ [canonicalAddrPort remote] ++
        List.replicate count (canonicalAddrPort remote) =
        w.packets ++ List.replicate (count + 1) (canonicalAddrPort remote) := by
      rw [append_assoc, singleton_append, replicate_succ]
    refine (ih (w.step (.ingress remote))).trans ?_
    rw [← numbers, ← packets]
    rfl

/-- The key that `firstPeer` is the text of. -/
def firstKey : NoisePublicKey := 1 :: List.replicate 31 0

def remote : AddrPort := sampleEndpoint 1

/-- The snapshot of the call is 0 again, and the first packet of all is newer. -/
def wrapped : List PathEvent :=
  List.replicate (2 ^ 64) (.ingress remote) ++
    [.install Instance.firstPeer (some remote) 1 none, .authenticate firstKey 0]

/-- The two events, after packets that the core has no trace of. -/
theorem run_stale (came : packets[0]? = some remote) : ({ core := pairCore, packets } : Pathway).run
        [.install firstPeer (some remote) 1 none, .authenticate firstKey 0] =
      { core := (pairCore.setPeerEndpoint firstPeer (some remote) 1
          none).2.recordAuthenticatedReceive ⟨firstKey, remote, sequenceOf 0⟩
        packets
        log := [.accepted firstPeer 1 (some remote) packets.length,
          .authenticated firstPeer 0] } := by
  have accepted : pairCore.setPeerEndpoint firstPeer (some remote) 1 none =
      ([], (pairCore.setPeerEndpoint firstPeer (some remote) 1 none).2) := by
    refine Prod.ext ?_ rfl
    decide +kernel
  have name : String.ofList (Base64.encode firstKey) = firstPeer := by
    decide +kernel
  rw [run, foldl_cons, foldl_cons, foldl_nil, step, accepted, accept_ok, step]
  rw [came, name]
  rfl

theorem ready_by_first_packet : ¬ (({ core := pairCore } : Pathway).run wrapped).Barrier := by
  have length : (List.replicate (2 ^ 64) remote).length = 2 ^ 64 := length_replicate
  have came : (List.replicate (2 ^ 64) remote)[0]? = some remote := by
    rw [getElem?_replicate, if_pos (by decide)]
  have flooded : ({ core := pairCore } : Pathway).run (List.replicate (2 ^ 64) (.ingress remote)) =
      { core := pairCore, packets := List.replicate (2 ^ 64) remote } := by
    rw [run_ingress]
    rfl
  rw [wrapped, run, foldl_append]
  change ¬ (run (run _ _) _).Barrier
  rw [flooded, run_stale came, length]
  have ready : (((pairCore.setPeerEndpoint firstPeer (some remote) 1
      none).2.recordAuthenticatedReceive ⟨firstKey, remote, sequenceOf 0⟩).peers.lookup
      firstPeer).map (fun peer => peer.status.authenticatedGeneration) = some 1 := by
    decide +kernel
  obtain ⟨peer, found, one⟩ := Option.map_eq_some_iff.mp ready
  intro barrier
  obtain ⟨choice, snapshot, packet, set, listed, order⟩ :=
    (barrier _ peer found (by rw [one]; decide)).entries
  have late : snapshot = 2 ^ 64 := by
    rw [mem_cons, mem_singleton] at set
    rcases set with same | same
    · exact (PathEntry.accepted.inj same).2.2.2
    · cases same
  have first : packet = 0 := by
    simpa using listed
  omega

/-- A packet from before the call does not count, and one from after it does. -/
def returning : List PathEvent :=
  [.ingress remote, .install Instance.firstPeer (some remote) 1 none,
    .authenticate firstKey 0, .ingress remote, .authenticate firstKey 1]

theorem returning_earned :
    (({ core := pairCore } : Pathway).run returning).packets.length < 2 ^ 64 ∧
      (({ core := pairCore } : Pathway).run returning).Barrier ∧
      ((({ core := pairCore } : Pathway).run returning).core.peers.lookup
        firstPeer).map (fun peer => peer.status.authenticatedGeneration) = some 1 := by
  have short : (({ core := pairCore } : Pathway).run returning).packets.length < 2 ^ 64 := by
    decide +kernel
  refine ⟨short, ?_, by decide +kernel⟩
  exact (readiness _ _ _ returning []).2.1 short

end Pathway

end WgQuic.Core
