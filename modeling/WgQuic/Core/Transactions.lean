import WgQuic.Core.Moves
import WgQuic.Lib.Table

/-!
# The transactions of the core

At most one transaction is open, and it is the active one.  What it was planned
to do does not change any more.
-/

namespace WgQuic.Core

open WgQuic.Bind Obfs AList

namespace Instance

variable {i : Instance}

theorem ledger_addPeers (transaction : PeerTransaction) (mutations : List PeerMutation) :
    (addPeers transaction mutations i).ledger = i.ledger := by
  induction mutations generalizing i with
  | nil => rfl
  | cons mutation rest ih =>
    unfold addPeers
    split
    · rw [ih]
      rfl
    · exact ih

theorem dropPeers_keeps (operation : PeerOperation) (mutations : List PeerMutation)
    (i : Instance) : (dropPeers operation mutations i).ledger = i.ledger ∧
      (dropPeers operation mutations i).orphans = i.orphans := by
  induction mutations generalizing i with
  | nil => exact ⟨rfl, rfl⟩
  | cons mutation rest ih =>
    unfold dropPeers
    split
    · rw [(ih _).1, (ih _).2]
      cases i.peers.lookup mutation.publicKey with
      | none => exact ⟨rfl, rfl⟩
      | some peer =>
        have frame := releasePeerRuntime_frame (i := i) mutation.publicKey peer
        exact ⟨frame.ledger, frame.orphans⟩
    · exact ih i

end Instance

/-! ## What a transaction is planned to do -/

namespace PeerTransaction

def Open (transaction : PeerTransaction) : Prop :=
  transaction.state = .prepared ∨ transaction.state = .committed

instance (transaction : PeerTransaction) : Decidable transaction.Open :=
  inferInstanceAs (Decidable (_ ∨ _))

structure WellFormed (transaction : PeerTransaction) : Prop where
  converted : Device.convertMutations transaction.mutations = .ok transaction.prepared.mutations
  nodup : (transaction.prepared.mutations.map Prod.snd).Nodup
  unused : ∀ publicKey peer, transaction.added.lookup publicKey = some peer → peer.Unused
  ready : transaction.state = .prepared → transaction.prepared.state = .ready
  committed : transaction.state = .committed → transaction.prepared.state = .committed
  changes_nodup : (transaction.fecChanges.map FECChange.publicKey).Nodup
  changes_update : ∀ change ∈ transaction.fecChanges, ∃ mutation ∈ transaction.mutations,
    mutation.operation = .update ∧ mutation.publicKey = change.publicKey

end PeerTransaction

namespace Instance

variable {i after : Instance}

/-- The plan of a transaction, from the peers that there are. -/
structure Plans (i : Instance) (start : PeerTransaction) (given : List PeerMutation)
    (planned : PeerTransaction) : Prop where
  prepared : planned.prepared = start.prepared
  mutations : planned.mutations = start.mutations
  state : planned.state = start.state
  fecApplied : planned.fecApplied = start.fecApplied
  unused : (∀ publicKey peer, start.added.lookup publicKey = some peer → peer.Unused) →
    ∀ publicKey peer, planned.added.lookup publicKey = some peer → peer.Unused
  changes : ∃ changes, planned.fecChanges = start.fecChanges ++ changes ∧
    (changes.map FECChange.publicKey).Sublist (given.map PeerMutation.publicKey) ∧
    ∀ change ∈ changes, change.before ≠ change.after ∧
      (∃ mutation ∈ given, mutation.operation = .update ∧ mutation.publicKey = change.publicKey) ∧
      ∃ peer, i.peers.lookup change.publicKey = some peer ∧ peer.fecPolicy = change.before

theorem Plans.refl (start : PeerTransaction) (mutations : List PeerMutation) :
    Plans i start mutations start :=
  ⟨rfl, rfl, rfl, rfl, fun unused => unused, [], by simp, List.nil_sublist _, by simp⟩

variable {planned start : PeerTransaction} {mutation : PeerMutation}

theorem Plans.cons {mid : PeerTransaction} {rest : List PeerMutation}
    (first : Plans i start [mutation] mid) (later : Plans i mid rest planned) :
    Plans i start (mutation :: rest) planned where
  prepared := later.prepared.trans first.prepared
  mutations := later.mutations.trans first.mutations
  state := later.state.trans first.state
  fecApplied := later.fecApplied.trans first.fecApplied
  unused unused := later.unused (first.unused unused)
  changes := by
    obtain ⟨here, firstEq, firstSub, firstChanges⟩ := first.changes
    obtain ⟨there, laterEq, laterSub, laterChanges⟩ := later.changes
    refine ⟨here ++ there, by rw [laterEq, firstEq, List.append_assoc], ?_, ?_⟩
    · rw [List.map_append]
      exact firstSub.append laterSub
    · intro change listed
      rcases List.mem_append.mp listed with listed | listed
      · obtain ⟨differ, ⟨update, single, isUpdate⟩, known⟩ := firstChanges change listed
        exact ⟨differ, ⟨update, List.mem_cons.mpr (.inl (List.mem_singleton.mp single)),
          isUpdate⟩, known⟩
      · obtain ⟨differ, ⟨update, listed, isUpdate⟩, known⟩ := laterChanges change listed
        exact ⟨differ, ⟨update, List.mem_cons_of_mem _ listed, isUpdate⟩, known⟩

theorem unused_insert {transaction : PeerTransaction} {publicKey : String}
    {peer : PeerRuntime} (fresh : peer.Unused)
    (unused : ∀ publicKey peer, transaction.added.lookup publicKey = some peer → peer.Unused) :
    ∀ other found, (transaction.added.insert publicKey peer).lookup other = some found →
      found.Unused := by
  intro other found lookup
  rcases lookup_insert_cases lookup with ⟨_, rfl⟩ | ⟨_, lookup⟩
  · exact fresh
  · exact unused other found lookup

theorem planMutation_plans
    (plan : i.planMutation start mutation = .ok planned) : Plans i start [mutation] planned := by
  unfold planMutation at plan
  dsimp only at plan
  split at plan
  · cases plan
  split at plan
  · cases plan
    exact ⟨rfl, rfl, rfl, rfl, fun unused => unused_insert ⟨rfl, rfl, rfl, rfl, rfl⟩ unused,
      [], by simp, List.nil_sublist _, by simp⟩
  · next operation peer isUpdate found =>
    split at plan
    · next different =>
      cases plan
      refine ⟨rfl, rfl, rfl, rfl, fun unused => unused, _, rfl, by simp, ?_⟩
      intro change listed
      rw [List.mem_singleton] at listed
      subst listed
      exact ⟨different, ⟨mutation, List.mem_singleton_self _, isUpdate, rfl⟩, peer, found, rfl⟩
    · cases plan
      exact .refl _ _
  · cases plan
    exact .refl _ _

theorem foldlM_planMutation_plans {mutations : List PeerMutation}
    (plan : mutations.foldlM i.planMutation start = .ok planned) :
    Plans i start mutations planned := by
  induction mutations generalizing start with
  | nil =>
    cases plan
    exact .refl _ _
  | cons mutation rest ih =>
    rw [List.foldlM_cons] at plan
    cases first : i.planMutation start mutation with
    | error err => rw [first] at plan; cases plan
    | ok mid =>
      rw [first] at plan
      exact (planMutation_plans first).cons (ih plan)

theorem acquireTransportKeys_plans (given mutations : List PeerMutation) (start : PeerTransaction)
    (j : Instance) : Plans i start given (acquireTransportKeys mutations start j).2.1 := by
  induction mutations generalizing start j with
  | nil => exact .refl _ _
  | cons mutation rest ih =>
    unfold acquireTransportKeys
    split
    · split
      · next key peer derived found =>
        have later := ih { start with
          added := start.added.insert mutation.publicKey
            { peer with
              obfsKey := some key
              releaseReceiveKey := some j.bind.keys.receiveHandles.length } }
          { j with bind.keys := j.bind.keys.acquireReceiveKey key }
        refine ⟨later.prepared, later.mutations, later.state, later.fecApplied, ?_, later.changes⟩
        intro unused
        refine later.unused (unused_insert ?_ unused)
        obtain ⟨status, association, fecPolicy, obsolete, object⟩ := unused _ _ found
        exact ⟨status, association, fecPolicy, obsolete, object⟩
      · exact .refl _ _
      · exact .refl _ _
    · exact ih _ _

theorem preparePeerTransportKeys_plans
    (done : i.preparePeerTransportKeys start = ([], planned, after)) :
    Plans i start start.mutations planned := by
  unfold preparePeerTransportKeys at done
  split at done
  · cases done
  next mid plan =>
  have plans := foldlM_planMutation_plans plan
  split at done
  · have keyed := acquireTransportKeys_plans (i := i) [] mid.mutations mid i
    rw [done] at keyed
    obtain ⟨none, unchanged, sublist, _⟩ := keyed.changes
    have empty : none = [] := by simpa using sublist
    refine ⟨keyed.prepared.trans plans.prepared, keyed.mutations.trans plans.mutations,
      keyed.state.trans plans.state, keyed.fecApplied.trans plans.fecApplied,
      fun unused => keyed.unused (plans.unused unused), ?_⟩
    rw [unchanged, empty, List.append_nil]
    exact plans.changes
  · cases done
    exact plans

end Instance

/-! ## What the device has agreed to -/

namespace Device

variable {device : Device} {converted : List (PeerOperation × NoisePublicKey)}
  {mutations : List PeerMutation} {mutation : PeerMutation}

theorem convertMutations_cons {rest : List PeerMutation}
    (done : convertMutations (mutation :: rest) = .ok converted) :
    ∃ key later, decodePeerPublicKey mutation.publicKey = some key ∧
      convertMutations rest = .ok later ∧ converted = (mutation.operation, key) :: later := by
  unfold convertMutations at done
  split at done
  · cases done
  · cases done
  · next key later decoded convertedRest =>
    cases done
    exact ⟨key, later, decoded, convertedRest, rfl⟩

section

variable (done : convertMutations mutations = .ok converted)

include done

theorem mem_converted {operation : PeerOperation} {key : NoisePublicKey} :
    (operation, key) ∈ converted ↔ ∃ mutation ∈ mutations,
      mutation.operation = operation ∧ decodePeerPublicKey mutation.publicKey = some key := by
  induction mutations generalizing converted with
  | nil =>
    cases done
    simp
  | cons mutation rest ih =>
    obtain ⟨first, later, decoded, convertedRest, rfl⟩ := convertMutations_cons done
    rw [List.mem_cons, ih convertedRest, Prod.mk.injEq, eq_comm (a := operation),
      eq_comm (a := key)]
    simp only [List.mem_cons, exists_eq_or_imp, decoded, Option.some.injEq]

theorem decoded_of_converted (listed : mutation ∈ mutations) :
    ∃ key, decodePeerPublicKey mutation.publicKey = some key := by
  induction mutations generalizing converted with
  | nil => cases listed
  | cons first rest ih =>
    obtain ⟨key, later, decoded, convertedRest, rfl⟩ := convertMutations_cons done
    rcases List.mem_cons.mp listed with rfl | listed
    · exact ⟨key, decoded⟩
    · exact ih convertedRest listed

theorem texts_nodup (nodup : (converted.map Prod.snd).Nodup) :
    (mutations.map PeerMutation.publicKey).Nodup := by
  induction mutations generalizing converted with
  | nil => exact List.nodup_nil
  | cons mutation rest ih =>
    obtain ⟨key, later, decoded, convertedRest, rfl⟩ := convertMutations_cons done
    rw [List.map_cons, List.nodup_cons] at nodup ⊢
    refine ⟨?_, ih convertedRest nodup.2⟩
    intro listed
    obtain ⟨other, otherListed, same⟩ := List.mem_map.mp listed
    have again : (other.operation, key) ∈ later :=
      (mem_converted convertedRest).mpr ⟨other, otherListed, rfl, by rw [same, decoded]⟩
    exact nodup.1 (List.mem_map.mpr ⟨_, again, rfl⟩)

end

theorem mapM_ok {α β ε : Type} {check : α → Except ε β} {items : List α} {results : List β}
    (done : items.mapM check = .ok results) :
    ∀ item ∈ items, ∃ result, check item = .ok result := by
  induction items generalizing results with
  | nil => simp
  | cons item rest ih =>
    rw [List.mapM_cons] at done
    cases first : check item with
    | error err => rw [first] at done; cases done
    | ok result =>
      rw [first] at done
      cases later : rest.mapM check with
      | error err =>
        rw [later] at done; cases done
      | ok more =>
        intro other listed
        rcases List.mem_cons.mp listed with rfl | listed
        · exact ⟨result, first⟩
        · exact ih later other listed

structure Prepared (device : Device) (mutations : List PeerMutation)
    (prepared : PreparedPeerSet) : Prop where
  converted : convertMutations mutations = .ok prepared.mutations
  nodup : (prepared.mutations.map Prod.snd).Nodup
  ready : prepared.state = .ready
  absent : ∀ key, (PeerOperation.add, key) ∈ prepared.mutations → key ∉ device.peers

theorem preparePeerSet_prepared {fault : Fault} {prepared : PreparedPeerSet}
    (accepted : device.preparePeerSet mutations fault = .ok prepared) :
    device.Prepared mutations prepared := by
  unfold preparePeerSet at accepted
  split at accepted
  · cases accepted
  next converted done =>
  dsimp only at accepted
  split at accepted
  · cases accepted
  split at accepted
  · cases accepted
  next nodup =>
  split at accepted
  · cases accepted
  · cases accepted
  next checked =>
  cases accepted
  refine ⟨done, by simpa using nodup, rfl, ?_⟩
  intro key listed
  obtain ⟨⟨⟩, fine⟩ := mapM_ok checked _ listed
  intro present
  simp [checkMutation, present] at fine

end Device

/-! ## One transaction at a time -/

namespace Ledger

structure Orderly (l : Ledger) : Prop where
  wellFormed : ∀ transactionID transaction,
    l.peerTransactions.lookup transactionID = some transaction → transaction.WellFormed
  named : ∀ transactionID transaction,
    l.peerTransactions.lookup transactionID = some transaction → transactionID ≠ ""
  single : ∀ transactionID transaction,
    l.peerTransactions.lookup transactionID = some transaction → transaction.Open →
    l.activePeerTransaction = transactionID
  active : l.activePeerTransaction ≠ "" → ∃ transaction,
    l.peerTransactions.lookup l.activePeerTransaction = some transaction ∧ transaction.Open
  /-- The peers that are to be added are not there yet. -/
  absent : ∀ transactionID transaction, l.peerTransactions.lookup transactionID = some transaction →
    transaction.state = .prepared → ∀ key,
    (PeerOperation.add, key) ∈ transaction.prepared.mutations → key ∉ l.device.peers

variable {l : Ledger} {transactionID : String} {transaction changed : PeerTransaction}

section

variable (orderly : l.Orderly) (found : l.peerTransactions.lookup transactionID = some transaction)
  (open_ : transaction.Open) (wellFormed : changed.WellFormed)

include orderly found open_ wellFormed

theorem Orderly.change (still : changed.Open) (device : Device)
    (absent : changed.state = .prepared → ∀ key,
      (PeerOperation.add, key) ∈ changed.prepared.mutations → key ∉ device.peers) :
    { l with
      device
      peerTransactions := l.peerTransactions.insert transactionID changed }.Orderly := by
  have active := orderly.single _ _ found open_
  refine ⟨?_, ?_, ?_, ?_, ?_⟩
  · exact forall_insert wellFormed orderly.wellFormed
  · exact forall_insert (orderly.named _ _ found) orderly.named
  · exact forall_insert (fun _ => active) orderly.single
  · intro _
    refine ⟨changed, ?_, still⟩
    rw [active, lookup_insert]
  · intro other _ lookup prepared
    rcases lookup_insert_cases lookup with ⟨_, rfl⟩ | ⟨different, lookup⟩
    · exact absent prepared
    · have openToo := orderly.single _ _ lookup (.inl prepared)
      exact absurd (openToo.symm.trans active) different

theorem Orderly.settle (closed : ¬changed.Open) (device : Device) :
    { l with
      device
      peerTransactions := l.peerTransactions.insert transactionID changed
      activePeerTransaction := "" }.Orderly := by
  have active := orderly.single _ _ found open_
  have others : ∀ other found',
      (l.peerTransactions.insert transactionID changed).lookup other = some found' →
      ¬found'.Open := by
    intro other _ lookup openToo
    rcases lookup_insert_cases lookup with ⟨_, rfl⟩ | ⟨different, lookup⟩
    · exact closed openToo
    · exact different ((orderly.single _ _ lookup openToo).symm.trans active)
  refine ⟨?_, ?_, ?_, fun named => absurd rfl named, ?_⟩
  · exact forall_insert wellFormed orderly.wellFormed
  · exact forall_insert (orderly.named _ _ found) orderly.named
  · intro other _ lookup openToo
    exact absurd openToo (others other _ lookup)
  · intro other _ lookup prepared
    exact absurd (.inl prepared) (others other _ lookup)

end

theorem Orderly.begin (orderly : l.Orderly) (named : transactionID ≠ "")
    (idle : l.activePeerTransaction = "") (wellFormed : transaction.WellFormed)
    (prepared : transaction.state = .prepared) (order : List String)
    (absent : ∀ key, (PeerOperation.add, key) ∈ transaction.prepared.mutations →
      key ∉ l.device.peers) :
    { l with
      peerTransactions := l.peerTransactions.insert transactionID transaction
      peerTransactionOrder := order
      activePeerTransaction := transactionID }.Orderly := by
  have closed : ∀ other found, l.peerTransactions.lookup other = some found → ¬found.Open := by
    intro other found lookup open_
    exact orderly.named _ _ lookup ((orderly.single _ _ lookup open_).symm.trans idle)
  refine ⟨?_, ?_, ?_, ?_, ?_⟩
  · exact forall_insert wellFormed orderly.wellFormed
  · exact forall_insert named orderly.named
  · exact forall_insert (fun _ => rfl) fun _ _ lookup open_ =>
      absurd open_ (closed _ _ lookup)
  · exact fun _ => ⟨transaction, lookup_insert _, .inl prepared⟩
  · exact forall_insert (fun _ => absent) fun _ _ lookup state =>
      absurd (.inl state) (closed _ _ lookup)

theorem Orderly.forget (orderly : l.Orderly)
    {transactions : AList (fun _ : String => PeerTransaction)} (order : List String)
    (subset : ∀ transactionID transaction, transactions.lookup transactionID = some transaction →
      l.peerTransactions.lookup transactionID = some transaction)
    (keeps : ∀ transactionID transaction,
      l.peerTransactions.lookup transactionID = some transaction → transaction.Open →
      transactions.lookup transactionID = some transaction) :
    { l with peerTransactions := transactions, peerTransactionOrder := order }.Orderly := by
  refine ⟨?_, ?_, ?_, ?_, ?_⟩
  · exact fun _ _ lookup => orderly.wellFormed _ _ (subset _ _ lookup)
  · exact fun _ _ lookup => orderly.named _ _ (subset _ _ lookup)
  · exact fun _ _ lookup => orderly.single _ _ (subset _ _ lookup)
  · intro named
    obtain ⟨transaction, lookup, open_⟩ := orderly.active named
    exact ⟨transaction, keeps _ _ lookup open_, open_⟩
  · exact fun _ _ lookup => orderly.absent _ _ (subset _ _ lookup)

end Ledger

namespace Instance

variable {i after : Instance} {transactionID : String}

theorem trimLoop_forgets (order : List String)
    (transactions : AList (fun _ : String => PeerTransaction)) :
    (∀ transactionID transaction,
      (trimLoop order transactions).2.lookup transactionID = some transaction →
      transactions.lookup transactionID = some transaction) ∧
    (∀ transactionID transaction,
      transactions.lookup transactionID = some transaction → transaction.Open →
      (trimLoop order transactions).2.lookup transactionID = some transaction) := by
  induction order generalizing transactions with
  | nil => exact ⟨fun _ _ lookup => lookup, fun _ _ lookup _ => lookup⟩
  | cons first rest ih =>
    have erase : (∀ found, transactions.lookup first = some found → ¬found.Open) →
        (∀ transactionID transaction,
          (trimLoop rest (transactions.erase first)).2.lookup transactionID = some transaction →
          transactions.lookup transactionID = some transaction) ∧
        (∀ transactionID transaction,
          transactions.lookup transactionID = some transaction → transaction.Open →
          (trimLoop rest (transactions.erase first)).2.lookup transactionID =
            some transaction) := by
      intro closed
      obtain ⟨subset, keeps⟩ := ih (transactions.erase first)
      refine ⟨?_, ?_⟩
      · intro other found lookup
        exact (lookup_erase_cases (subset other found lookup)).2
      · intro other found lookup open_
        have different : other ≠ first := by
          rintro rfl
          exact closed found lookup open_
        exact keeps other found (by rw [lookup_erase_ne different, lookup]) open_
    unfold trimLoop
    split
    · split
      · next transaction lookup =>
        split
        · exact ⟨fun _ _ lookup => lookup, fun _ _ lookup _ => lookup⟩
        next closed =>
        refine erase ?_
        intro found same open_
        rw [lookup] at same
        cases same
        exact closed open_
      next absent =>
      refine erase ?_
      intro found same
      rw [absent] at same
      cases same
    · exact ⟨fun _ _ lookup => lookup, fun _ _ lookup _ => lookup⟩

theorem orderly_trim (orderly : i.ledger.Orderly) : i.trimPeerTransactions.ledger.Orderly := by
  obtain ⟨subset, keeps⟩ := trimLoop_forgets i.peerTransactionOrder i.peerTransactions
  exact orderly.forget _ subset keeps

variable {request : PeerSetRequest}

/-- The plan of a request that the device has agreed to. -/
theorem Plans.wellFormed {prepared : PreparedPeerSet} {planned : PeerTransaction}
    (plans : Plans i (request.transaction prepared) request.mutations planned)
    (agreed : i.device.Prepared request.mutations prepared) : planned.WellFormed := by
  obtain ⟨changes, equal, sublist, each⟩ := plans.changes
  have start : planned.fecChanges = changes := equal
  have mutations : planned.mutations = request.mutations := plans.mutations
  have state : planned.state = .prepared := plans.state
  have same : planned.prepared = prepared := plans.prepared
  refine ⟨by rw [mutations, same]; exact agreed.converted, by rw [same]; exact agreed.nodup,
    ?_, fun _ => by rw [same]; exact agreed.ready, ?_, ?_, ?_⟩
  · refine plans.unused ?_
    intro publicKey peer lookup
    simp [PeerSetRequest.transaction] at lookup
  · intro committed
    rw [state] at committed
    cases committed
  · rw [start]
    exact sublist.nodup (Device.texts_nodup agreed.converted agreed.nodup)
  · intro change listed
    rw [start] at listed
    rw [mutations]
    exact (each change listed).2.1

theorem orderly_prepare (orderly : i.ledger.Orderly)
    {fault : Fault} {errs : Errors} (done : i.preparePeerSet request fault = (errs, after)) :
    after.ledger.Orderly := by
  cases preparePeerSet_prepares done with
  | refused | repeated => exact orderly
  | failed planned =>
    rw [(failed_rekeys planned).frame.ledger]
    exact orderly
  | opened valid fresh idle accepted planned =>
    have ledger := (preparePeerTransportKeys_rekeys planned).frame.ledger
    have agreed := Device.preparePeerSet_prepared accepted
    have plans := preparePeerTransportKeys_plans planned
    have same : _ = _ := plans.prepared
    have named : request.transactionID ≠ "" := by
      rintro empty
      simp [validTransactionID, empty] at valid
    refine orderly_trim ?_
    rw [← ledger] at orderly
    refine orderly.begin named ?_ (plans.wellFormed agreed) plans.state _ ?_
    · rw [ledger]
      exact idle
    · rw [ledger, same]
      exact agreed.absent

variable {changed transaction : PeerTransaction}

theorem applied_wellFormed (wellFormed : transaction.WellFormed)
    (same : ∃ applied, changed = { transaction with fecApplied := applied }) :
    changed.WellFormed := by
  obtain ⟨applied, rfl⟩ := same
  obtain ⟨converted, nodup, unused, ready, committed, changes, update⟩ := wellFormed
  exact ⟨converted, nodup, unused, ready, committed, changes, update⟩

/-- An open transaction is put back after its policies were changed. -/
theorem orderly_store (orderly : i.ledger.Orderly)
    (found : i.peerTransactions.lookup transactionID = some transaction) (open_ : transaction.Open)
    (applies : Applies i transaction changed after) :
    (after.setTransaction transactionID changed).ledger.Orderly := by
  have ledger := applies.ledger
  obtain ⟨_, applied, rfl⟩ := applies
  have lookup : after.ledger.peerTransactions.lookup transactionID = some transaction := by
    rw [ledger]
    exact found
  rw [← ledger] at orderly
  have absent := orderly.absent _ _ lookup
  exact orderly.change lookup open_
    (applied_wellFormed (orderly.wellFormed _ _ lookup) ⟨applied, rfl⟩) open_ after.device absent

end Instance

namespace Device

variable {device : Device} {prepared after : PreparedPeerSet} {fault : Fault} {result : Device}

theorem commit_ready (ready : prepared.state = .ready)
    (accepted : device.commit prepared fault = .ok (result, after)) :
    after = { prepared with state := .committed } ∧ result.peers = device.peers ++
      (prepared.mutations.filter fun mutation => mutation.1 = .add).map Prod.snd := by
  unfold commit at accepted
  rw [ready] at accepted
  cases fault with
  | some cause => cases accepted
  | none =>
    cases accepted
    exact ⟨rfl, rfl⟩

theorem rollback_ready (ready : prepared.state = .ready)
    (accepted : device.rollback prepared fault = .ok (result, after)) :
    after = { prepared with state := .rolledBack } ∧ result = device := by
  unfold rollback at accepted
  rw [ready] at accepted
  cases accepted
  exact ⟨rfl, rfl⟩

theorem rollback_committed (committed : prepared.state = .committed)
    (accepted : device.rollback prepared fault = .ok (result, after)) :
    after = { prepared with state := .rolledBack } ∧
      result = device.removePeers .add prepared.mutations := by
  unfold rollback at accepted
  rw [committed] at accepted
  cases fault with
  | some cause => cases accepted
  | none => cases accepted; exact ⟨rfl, rfl⟩

theorem finalize_committed (committed : prepared.state = .committed)
    (accepted : device.finalize prepared fault = .ok (result, after)) :
    after = { prepared with state := .finalized } ∧
      result = device.removePeers .remove prepared.mutations := by
  unfold finalize at accepted
  rw [committed] at accepted
  cases fault with
  | some cause => cases accepted
  | none => cases accepted; exact ⟨rfl, rfl⟩

end Device

namespace Instance

variable {i after : Instance} {transactionID : String} {errs : Errors} {fault : Fault}

section

variable (orderly : i.ledger.Orderly)

include orderly

theorem orderly_commit
    (done : i.commitPeerSet transactionID fault = (errs, after)) : after.ledger.Orderly := by
  cases commitPeerSet_commits done with
  | refused | already => exact orderly
  | unapplied found state applied =>
    exact orderly_store orderly found (.inl state) (applyPeerFECChanges_applies applied)
  | reverted found state applied refused reverted =>
    exact orderly_store orderly found (.inl state)
      ((applyPeerFECChanges_applies applied).trans (rollbackPeerFECChanges_applies reverted))
  | @committed transaction changed prepared device mid found state applied accepted =>
    have applies := applyPeerFECChanges_applies applied
    have ledger := applies.ledger
    obtain ⟨_, same⟩ := applies
    have wellFormed := applied_wellFormed (orderly.wellFormed _ _ found) same
    obtain ⟨fecApplied, rfl⟩ := same
    have lookup : mid.ledger.peerTransactions.lookup transactionID = some transaction := by
      rw [ledger]
      exact found
    rw [← ledger] at orderly
    obtain ⟨rfl, -⟩ := Device.commit_ready (wellFormed.ready state) accepted
    change Ledger.Orderly { (addPeers _ _ _).ledger with
      peerTransactions := (addPeers _ _ _).ledger.peerTransactions.insert _ _ }
    rw [ledger_addPeers]
    refine orderly.change lookup (.inl state) ?_ (.inr rfl) device nofun
    exact ⟨wellFormed.converted, wellFormed.nodup, wellFormed.unused, nofun,
      fun _ => rfl, wellFormed.changes_nodup, wellFormed.changes_update⟩

theorem orderly_settle {transaction : PeerTransaction}
    (found : i.peerTransactions.lookup transactionID = some transaction) (open_ : transaction.Open)
    (device : Device) (prepared : PreparedState) (fecApplied : Bool) (state : TransactionState)
    (settled : state = .rolledBack ∨ state = .finalized)
    (ledger : after.ledger = { i.ledger with device }) :
    ((after.setTransaction transactionID { transaction with
      fecApplied
      prepared := { transaction.prepared with state := prepared }
      state }).deactivate transactionID).ledger.Orderly := by
  have active : after.activePeerTransaction = transactionID := by
    change after.ledger.activePeerTransaction = _
    rw [ledger]
    exact orderly.single _ _ found open_
  have wellFormed := orderly.wellFormed _ _ found
  have closed : state ≠ .prepared ∧ state ≠ .committed := by
    rcases settled with rfl | rfl <;> exact ⟨nofun, nofun⟩
  rw [deactivate, if_pos (by exact active)]
  change Ledger.Orderly { after.ledger with
    peerTransactions := after.ledger.peerTransactions.insert transactionID _
    activePeerTransaction := "" }
  rw [ledger]
  refine orderly.settle found open_ ?_ ?_ device
  · exact ⟨wellFormed.converted, wellFormed.nodup, wellFormed.unused,
      fun same => absurd same closed.1, fun same => absurd same closed.2,
      wellFormed.changes_nodup, wellFormed.changes_update⟩
  · rintro (same | same)
    · exact closed.1 same
    · exact closed.2 same

theorem orderly_rollback (done : i.rollbackPeerSet transactionID fault = (errs, after)) :
    after.ledger.Orderly := by
  cases rollbackPeerSet_rollsBack done with
  | refused | already => exact orderly
  | blocked found state reverted | stuck found state reverted =>
    exact orderly_store orderly found state (rollbackPeerFECChanges_applies reverted)
  | @withdrawn transaction restored prepared device mid found state reverted accepted =>
    have ledger := (rollbackPeerFECChanges_applies reverted).ledger
    obtain ⟨_, fecApplied, rfl⟩ := rollbackPeerFECChanges_applies reverted
    obtain ⟨rfl, -⟩ := Device.rollback_ready ((orderly.wellFormed _ _ found).ready state) accepted
    refine orderly_settle orderly found (.inl state) device _ fecApplied _ (.inl rfl) ?_
    rw [(releasePreparedAdditions_rekeys _ _).frame.ledger, ← ledger]
    rfl
  | @undone transaction restored prepared device mid found state reverted accepted =>
    have ledger := (rollbackPeerFECChanges_applies reverted).ledger
    obtain ⟨_, fecApplied, rfl⟩ := rollbackPeerFECChanges_applies reverted
    obtain ⟨rfl, -⟩ :=
      Device.rollback_committed ((orderly.wellFormed _ _ found).committed state) accepted
    refine orderly_settle orderly found (.inr state) device _ fecApplied _ (.inl rfl) ?_
    rw [(dropPeers_keeps _ _ _).1, ← ledger]
    rfl

theorem orderly_finalize (done : i.finalizePeerSet transactionID fault = (errs, after)) :
    after.ledger.Orderly := by
  cases finalizePeerSet_finalizes done with
  | refused | already => exact orderly
  | @finalized transaction prepared device found state accepted =>
    obtain ⟨rfl, -⟩ :=
      Device.finalize_committed ((orderly.wellFormed _ _ found).committed state) accepted
    refine orderly_settle orderly found (.inr state) device _ transaction.fecApplied _ (.inr rfl) ?_
    rw [(dropPeers_keeps _ _ _).1]
    rfl

theorem orderly_step (call : CoreCall) : (i.step call).ledger.Orderly := by
  rcases step_cases i call with same | ⟨request, fault, rfl⟩ | ⟨transactionID, fault, rfl⟩ |
    ⟨transactionID, fault, rfl⟩ | ⟨transactionID, fault, rfl⟩
  · rw [same.ledger]
    exact orderly
  · exact orderly_prepare orderly rfl
  · exact orderly_commit orderly rfl
  · exact orderly_rollback orderly rfl
  · exact orderly_finalize orderly rfl

end

theorem ledger_configurePeers (configured : List ConfiguredPeer) (i : Instance) :
    (configured.foldl configurePeer i).ledger = i.ledger := by
  induction configured generalizing i with
  | nil => rfl
  | cons peer rest ih =>
    rw [List.foldl_cons, ih, configurePeer]
    split <;> rfl

section

variable (settings : TransportSettings) (config : Bind.Config) (configured : List ConfiguredPeer)

include settings config configured

theorem ledger_newInstance : (newInstance settings config configured).ledger = {
      settings
      device := { peers := configured.filterMap fun peer => Base64.decode false peer.publicKey }
      peerTransactions := ∅
      peerTransactionOrder := []
      activePeerTransaction := "" } := by
  exact ledger_configurePeers _ _

theorem orderly_newInstance : (newInstance settings config configured).ledger.Orderly := by
  rw [ledger_newInstance]
  exact ⟨fun _ _ found => by simp at found, fun _ _ found => by simp at found,
    fun _ _ found => by simp at found, fun named => absurd rfl named,
    fun _ _ found => by simp at found⟩

end

theorem orderly_of_reaches {allowed : Instance → CoreCall → Prop} {start : Instance}
    (orderly : start.ledger.Orderly) (reached : Reaches allowed start i) : i.ledger.Orderly := by
  induction reached with
  | refl => exact orderly
  | call _ call _ ih => exact orderly_step ih call

end Instance

end WgQuic.Core
