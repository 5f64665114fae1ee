import WgQuic.Core.Leases

/-!
# The names of peers

The core knows a peer by the text of its public key, the device by the key
itself.  As long as no text has a line break in it, the two mean the same peer,
and no peer takes the place of another.
-/

namespace WgQuic.Core

open WgQuic.Bind Obfs PeerRuntime Device AList

/-- A text in which a decoder skips nothing. -/
def Plain (text : String) : Prop :=
  ∀ symbol ∈ text.toList, Base64.isLineBreak symbol = false

instance (text : String) : Decidable (Plain text) :=
  List.decidableBAll _ text.toList

variable {key : NoisePublicKey}

theorem decode_of_publicKey {text : String}
    (decoded : decodePeerPublicKey text = some key) : Base64.decode true text = some key :=
  (Option.filter_eq_some_iff.mp decoded).1

namespace Instance

variable {i mid after : Instance} {publicKey transactionID : String} {peer : PeerRuntime}
  {errs : Errors} {transaction : PeerTransaction} {fault : Fault} {mutations : List PeerMutation}
  {configured : List ConfiguredPeer}

/-- The device has the key of every peer, by a text that nothing is skipped in. -/
structure Aligned (i : Instance) : Prop where
  peers : ∀ publicKey peer, i.peers.lookup publicKey = some peer → Plain publicKey ∧
      ∀ key, decodePeerPublicKey publicKey = some key → key ∈ i.device.peers
  transactions : ∀ transactionID transaction,
    i.peerTransactions.lookup transactionID = some transaction →
    ∀ mutation ∈ transaction.mutations, Plain mutation.publicKey
  orphans : i.orphans = []

section

variable (aligned : i.Aligned)

include aligned

theorem Aligned.preserves {α : Type} {part : PeerRuntime → α}
    (preserves : Preserves part i after) : after.Aligned := by
  have device : after.device = i.device := congrArg Ledger.device preserves.ledger
  have transactions : after.peerTransactions = i.peerTransactions :=
    congrArg Ledger.peerTransactions preserves.ledger
  refine ⟨?_, ?_, preserves.orphans.trans aligned.orphans⟩
  · intro publicKey peer found
    obtain ⟨before, lookup, _⟩ := preserves.lookup found
    rw [device]
    exact aligned.peers publicKey before lookup
  · rw [transactions]
    exact aligned.transactions

theorem Aligned.frame (frame : Frame i after) : after.Aligned :=
  aligned.preserves (frame.preserves : Preserves unleased i after)

/-- A transaction is stored under the mutations that it has. -/
theorem Aligned.setTransaction
    (plain : ∀ mutation ∈ transaction.mutations, Plain mutation.publicKey) :
    (i.setTransaction transactionID transaction).Aligned :=
  ⟨aligned.peers, forall_insert plain aligned.transactions, aligned.orphans⟩

theorem Aligned.deactivate : (i.deactivate transactionID).Aligned := by
  unfold Instance.deactivate
  split
  · exact ⟨aligned.peers, aligned.transactions, aligned.orphans⟩
  · exact aligned

theorem Aligned.prepare {request : PeerSetRequest}
    (plain : ∀ mutation ∈ request.mutations, Plain mutation.publicKey)
    (done : i.preparePeerSet request fault = (errs, after)) : after.Aligned := by
  cases preparePeerSet_prepares done with
  | refused | repeated => exact aligned
  | failed planned => exact aligned.frame (failed_rekeys planned).frame
  | @opened prepared transaction later valid fresh idle accepted planned =>
    have mutations : transaction.mutations = request.mutations :=
      (preparePeerTransportKeys_plans planned).mutations
    have stored : (later.setTransaction request.transactionID transaction).Aligned :=
      (aligned.frame (preparePeerTransportKeys_rekeys planned).frame).setTransaction
        (by rw [mutations]; exact plain)
    refine ⟨stored.peers, ?_, stored.orphans⟩
    intro other _ lookup
    exact stored.transactions other _ ((trimLoop_forgets _ _).1 _ _ lookup)

/-- The peers of a transaction are added to those that there are, of which none has
the name of another. -/
theorem addPeers_aligned (texts : (mutations.map PeerMutation.publicKey).Nodup)
    (plain : ∀ mutation ∈ mutations, Plain mutation.publicKey)
    (known : ∀ mutation ∈ mutations, mutation.operation = .add → ∀ key, decodePeerPublicKey
      mutation.publicKey = some key → key ∈ i.device.peers)
    (absent : ∀ mutation ∈ mutations, mutation.operation = .add → i.peers.lookup mutation.publicKey
      = none) :
    (addPeers transaction mutations i).Aligned := by
  induction mutations generalizing i with
  | nil => exact aligned
  | cons mutation rest ih =>
    obtain ⟨new, texts⟩ := List.nodup_cons.mp texts
    have plainRest := fun other listed => plain other (List.mem_cons_of_mem _ listed)
    have knownRest := fun other listed => known other (List.mem_cons_of_mem _ listed)
    have absentRest := fun other listed => absent other (List.mem_cons_of_mem _ listed)
    unfold addPeers
    split
    · next isAdd _ =>
      have free := absent mutation List.mem_cons_self isAdd
      refine ih ⟨?_, aligned.transactions, ?_⟩ texts plainRest knownRest ?_
      · exact forall_insert ⟨plain mutation List.mem_cons_self,
          known mutation List.mem_cons_self isAdd⟩ aligned.peers
      · rw [free, aligned.orphans]
        rfl
      · intro other listed otherAdd
        have different : other.publicKey ≠ mutation.publicKey := fun same =>
          new (List.mem_map.mpr ⟨other, listed, same⟩)
        change (i.peers.insert mutation.publicKey _).lookup other.publicKey = none
        rw [lookup_insert_ne different]
        exact absentRest other listed otherAdd
    · exact ih aligned texts plainRest knownRest absentRest

theorem Aligned.commit (orderly : i.ledger.Orderly)
    (done : i.commitPeerSet transactionID fault = (errs, after)) : after.Aligned := by
  have store : ∀ {transaction changed : PeerTransaction} {later : Instance},
      i.peerTransactions.lookup transactionID = some transaction →
      Applies i transaction changed later →
      (later.setTransaction transactionID changed).Aligned := by
    intro transaction changed later found applies
    have plain := aligned.transactions _ _ found
    refine (aligned.preserves applies.retunes.preserves).setTransaction ?_
    obtain ⟨applied, rfl⟩ := applies.same
    exact plain
  cases commitPeerSet_commits done with
  | refused | already => exact aligned
  | unapplied found state applied =>
    exact store found (applyPeerFECChanges_applies applied)
  | reverted found state applied refused reverted =>
    exact store found
      ((applyPeerFECChanges_applies applied).trans (rollbackPeerFECChanges_applies reverted))
  | @committed transaction changed prepared device mid found state applied accepted =>
    have applies := applyPeerFECChanges_applies applied
    have before := aligned.preserves applies.retunes.preserves
    have wellFormed := orderly.wellFormed _ _ found
    have plain := aligned.transactions _ _ found
    have absent := orderly.absent _ _ found state
    have sameDevice : mid.device = i.device := congrArg Ledger.device applies.ledger
    obtain ⟨fecApplied, rfl⟩ := applies.same
    obtain ⟨-, peers⟩ := commit_ready (wellFormed.ready state) accepted
    refine Aligned.setTransaction ?_ plain
    refine addPeers_aligned ⟨?_, before.transactions, before.orphans⟩
      (texts_nodup wellFormed.converted wellFormed.nodup) plain ?_ ?_
    · intro publicKey peer lookup
      obtain ⟨unbroken, known⟩ := before.peers publicKey peer lookup
      refine ⟨unbroken, ?_⟩
      intro key decoded
      rw [peers]
      exact List.mem_append_left _ (known key decoded)
    · intro mutation listed isAdd key decoded
      have converted := (mem_converted wellFormed.converted).mpr ⟨mutation, listed, isAdd, decoded⟩
      rw [peers]
      refine List.mem_append_right _ (List.mem_map.mpr ⟨(.add, key), ?_, rfl⟩)
      exact List.mem_filter.mpr ⟨converted, by simp⟩
    · intro mutation listed isAdd
      cases lookup : mid.peers.lookup mutation.publicKey with
      | none => rfl
      | some peer =>
        obtain ⟨key, decoded⟩ := decoded_of_converted wellFormed.converted listed
        have converted := (mem_converted wellFormed.converted).mpr
          ⟨mutation, listed, isAdd, decoded⟩
        have known := (before.peers _ peer lookup).2 key decoded
        rw [sameDevice] at known
        exact absurd known (absent key converted)

end

variable {operation : PeerOperation}

theorem lookup_dropPeers
    (found : (dropPeers operation mutations i).peers.lookup publicKey = some peer) :
    i.peers.lookup publicKey = some peer ∧ ∀ mutation ∈ mutations, mutation.operation = operation →
        mutation.publicKey ≠ publicKey := by
  induction mutations generalizing i with
  | nil => exact ⟨found, nofun⟩
  | cons mutation rest ih =>
    unfold dropPeers at found
    split at found
    · obtain ⟨lookup, others⟩ := ih found
      obtain ⟨different, lookup⟩ := lookup_erase_cases lookup
      refine ⟨?_, ?_⟩
      · cases known : i.peers.lookup mutation.publicKey with
        | none => simpa [known] using lookup
        | some gone =>
          rw [known] at lookup
          rwa [(releasePeerRuntime_frame mutation.publicKey gone).peers] at lookup
      · intro other listed isOperation
        rcases List.mem_cons.mp listed with rfl | listed
        · exact different.symm
        · exact others other listed isOperation
    next isOther =>
    obtain ⟨lookup, others⟩ := ih found
    refine ⟨lookup, ?_⟩
    intro other listed isOperation
    rcases List.mem_cons.mp listed with rfl | listed
    · exact absurd isOperation isOther
    · exact others other listed isOperation

theorem lookup_dropPeers_of_ne
    (others : ∀ mutation ∈ mutations, mutation.operation = operation → mutation.publicKey ≠
      publicKey) :
    (dropPeers operation mutations i).peers.lookup publicKey = i.peers.lookup publicKey := by
  induction mutations generalizing i with
  | nil => rfl
  | cons mutation rest ih =>
    have rest := fun other listed => others other (List.mem_cons_of_mem _ listed)
    unfold dropPeers
    split
    · next isOperation =>
      have different := others mutation List.mem_cons_self isOperation
      rw [ih rest, lookup_erase_ne different.symm]
      cases i.peers.lookup mutation.publicKey with
      | none => rfl
      | some gone => rw [(releasePeerRuntime_frame mutation.publicKey gone).peers]
    · exact ih rest

/-- The peers of a transaction go, together with their keys. -/
theorem Aligned.drop (aligned : i.Aligned) (wellFormed : transaction.WellFormed)
    (plain : ∀ mutation ∈ transaction.mutations, Plain mutation.publicKey)
    (operation : PeerOperation) :
    (dropPeers operation transaction.mutations { i with
      device := i.device.removePeers operation transaction.prepared.mutations }).Aligned := by
  obtain ⟨ledger, orphans⟩ := dropPeers_keeps operation transaction.mutations { i with
    device := i.device.removePeers operation transaction.prepared.mutations }
  have device := congrArg Ledger.device ledger
  have transactions := congrArg Ledger.peerTransactions ledger
  refine ⟨?_, ?_, orphans.trans aligned.orphans⟩
  · intro publicKey peer found
    obtain ⟨lookup, others⟩ := lookup_dropPeers found
    obtain ⟨unbroken, known⟩ := aligned.peers publicKey peer lookup
    refine ⟨unbroken, ?_⟩
    intro key decoded
    change key ∈ (Instance.ledger _).device.peers
    rw [device]
    refine List.mem_filter.mpr ⟨known key decoded, decide_eq_true ?_⟩
    intro gone
    obtain ⟨⟨_, _⟩, converted, rfl⟩ := List.mem_map.mp gone
    obtain ⟨converted, isOperation⟩ := List.mem_filter.mp converted
    obtain ⟨mutation, listed, sameOperation, sameKey⟩ :=
      (mem_converted wellFormed.converted).mp converted
    refine others mutation listed (sameOperation.trans (of_decide_eq_true isOperation)) ?_
    exact Base64.eq_of_decode (decode_of_publicKey sameKey) (decode_of_publicKey decoded)
      (plain mutation listed) unbroken
  · intro other found lookup
    change (Instance.ledger _).peerTransactions.lookup other = some found at lookup
    rw [transactions] at lookup
    exact aligned.transactions other found lookup

theorem Aligned.rollback (aligned : i.Aligned) (orderly : i.ledger.Orderly)
    (done : i.rollbackPeerSet transactionID fault = (errs, after)) : after.Aligned := by
  cases rollbackPeerSet_rollsBack done with
  | refused | already => exact aligned
  | blocked found state reverted | stuck found state reverted =>
    obtain ⟨retunes, _, rfl⟩ := rollbackPeerFECChanges_applies reverted
    have plain := aligned.transactions _ _ found
    exact (aligned.preserves retunes.preserves).setTransaction plain
  | @withdrawn transaction restored prepared device mid found state reverted accepted =>
    obtain ⟨retunes, _, rfl⟩ := rollbackPeerFECChanges_applies reverted
    have ready := (orderly.wellFormed _ _ found).ready state
    obtain ⟨-, rfl⟩ := rollback_ready ready accepted
    have preserves := retunes.preserves.trans
      (releasePreparedAdditions_rekeys mid transaction).frame.preserves
    have plain := aligned.transactions _ _ found
    exact Aligned.deactivate (Aligned.setTransaction (aligned.preserves preserves) plain)
  | @undone transaction restored prepared device mid found state reverted accepted =>
    obtain ⟨retunes, _, rfl⟩ := rollbackPeerFECChanges_applies reverted
    have wellFormed := orderly.wellFormed _ _ found
    obtain ⟨-, rfl⟩ := rollback_committed (wellFormed.committed state) accepted
    have before := aligned.preserves retunes.preserves
    have plain := aligned.transactions _ _ found
    exact Aligned.deactivate (Aligned.setTransaction (before.drop wellFormed plain .add) plain)

theorem Aligned.finalize (aligned : i.Aligned) (orderly : i.ledger.Orderly)
    (done : i.finalizePeerSet transactionID fault = (errs, after)) : after.Aligned := by
  cases finalizePeerSet_finalizes done with
  | refused | already => exact aligned
  | finalized found state accepted =>
    have wellFormed := orderly.wellFormed _ _ found
    obtain ⟨-, rfl⟩ := finalize_committed (wellFormed.committed state) accepted
    have plain := aligned.transactions _ _ found
    exact Aligned.deactivate (Aligned.setTransaction (aligned.drop wellFormed plain .remove) plain)

/-- No peer of a transaction has a line break in the text of its key. -/
def PlainKeys (_ : Instance) : CoreCall → Prop
  | .preparePeerSet request _ => ∀ mutation ∈ request.mutations, Plain mutation.publicKey
  | _ => True

instance (i : Instance) (call : CoreCall) : Decidable (PlainKeys i call) := by
  unfold PlainKeys
  split <;> infer_instance

theorem Aligned.step (aligned : i.Aligned) (orderly : i.ledger.Orderly) {call : CoreCall}
    (plain : PlainKeys i call) : (i.step call).Aligned := by
  rcases step_cases i call with same | ⟨request, fault, rfl⟩ | ⟨transactionID, fault, rfl⟩ |
    ⟨transactionID, fault, rfl⟩ | ⟨transactionID, fault, rfl⟩
  · exact aligned.preserves same
  · exact aligned.prepare plain rfl
  · exact aligned.commit orderly rfl
  · exact aligned.rollback orderly rfl
  · exact aligned.finalize orderly rfl

theorem lookup_configurePeers
    (found : (configured.foldl configurePeer i).peers.lookup publicKey = some peer) :
    (∃ other ∈ configured, other.publicKey = publicKey) ∨ i.peers.lookup publicKey = some peer := by
  induction configured generalizing i with
  | nil => exact .inr found
  | cons first rest ih =>
    rcases ih found with ⟨other, listed, same⟩ | lookup
    · exact .inl ⟨other, List.mem_cons_of_mem _ listed, same⟩
    have inserted : ∃ runtime, (i.configurePeer first).peers =
        i.peers.insert first.publicKey runtime := by
      unfold configurePeer
      split <;> exact ⟨_, rfl⟩
    obtain ⟨runtime, peers⟩ := inserted
    rw [peers] at lookup
    rcases lookup_insert_cases lookup with ⟨rfl, _⟩ | ⟨_, lookup⟩
    · exact .inl ⟨first, List.mem_cons_self, rfl⟩
    · exact .inr lookup

theorem aligned_newInstance (settings : TransportSettings) (config : Bind.Config)
    (plain : ∀ peer ∈ configured, Plain peer.publicKey) :
    (newInstance settings config configured).Aligned := by
  have ledger := ledger_newInstance settings config configured
  have device := congrArg Ledger.device ledger
  have transactions := congrArg Ledger.peerTransactions ledger
  refine ⟨?_, ?_, (fresh_newInstance settings config configured).orphans⟩
  · intro publicKey peer found
    rcases lookup_configurePeers found with ⟨other, listed, rfl⟩ | lookup
    · refine ⟨plain other listed, ?_⟩
      intro key decoded
      change key ∈ (Instance.ledger _).device.peers
      rw [device]
      exact List.mem_filterMap.mpr
        ⟨other, listed, Base64.decode_of_strict (decode_of_publicKey decoded)⟩
    · simp at lookup
  · intro transactionID transaction found
    change (Instance.ledger _).peerTransactions.lookup transactionID = some transaction at found
    rw [transactions] at found
    simp at found

theorem aligned_of_reaches {settings : TransportSettings} {config : Bind.Config}
    (plain : ∀ peer ∈ configured, Plain peer.publicKey)
    (reached : Reaches PlainKeys (newInstance settings config configured) i) : i.Aligned := by
  induction reached with
  | refl => exact aligned_newInstance settings config plain
  | call reached call permitted ih =>
    exact ih.step (orderly_of_reaches (orderly_newInstance _ _ _) reached) permitted

end Instance

end WgQuic.Core
