import WgQuic.Core.PeerNames

/-!
# Rolling back the policies of a transaction

A transaction changes the policy of a peer together with the lease of its
endpoint, which only works while nobody else has a reference to it.  A failed
change is undone at once.  A rollback that fails for one peer may have restored
others, and then it does not get past these any more.
-/

namespace WgQuic.Core

open List WgQuic.Bind Obfs FECChange

namespace Instance

variable {i mid after : Instance} {publicKey transactionID : String} {peer : PeerRuntime}
  {change : FECChange} {changes applied : List FECChange}

def policyOf (i : Instance) (publicKey : String) : Option FECPolicy :=
  (i.peers.lookup publicKey).map PeerRuntime.fecPolicy

theorem policyOf_congr (same : after.peers.lookup publicKey = i.peers.lookup publicKey) :
    after.policyOf publicKey = i.policyOf publicKey := by
  rw [policyOf, policyOf, same]

/-! ## One change -/

/-- One peer has another policy now.  Every endpoint has as many references as
before. -/
structure Sets (i : Instance) (publicKey : String) (new : FECPolicy) (after : Instance) : Prop where
  here : after.policyOf publicKey = some new
  others : ∀ other, other ≠ publicKey → after.peers.lookup other = i.peers.lookup other
  refs : ∀ endpoint, after.bind.fec.book.refs endpoint = i.bind.fec.book.refs endpoint
  accounted : i.Accounted → after.Accounted

variable {new : FECPolicy} {errs : Errors} {changed : PeerTransaction} {otherID : String}
  {fault : Fault}

theorem changeFECPolicy_sets (found : i.peers.lookup publicKey = some peer)
    (changed : i.changeFECPolicy publicKey peer peer.fecPolicy new = .ok after) :
    Sets i publicKey new after := by
  have accounted := fun accounted : i.Accounted => accounted.policy found changed
  cases changeFECPolicy_changes changed with
  | alone _ =>
    refine ⟨?_, ?_, fun _ => rfl, accounted⟩
    · rw [policyOf, setPeer, AList.lookup_insert]
      rfl
    · exact fun other different => AList.lookup_insert_ne different
  | leased _ replaced =>
    obtain ⟨chosen, _, replaces⟩ := FECLeases.replace_replaces replaced
    refine ⟨?_, ?_, ?_, accounted⟩
    · rw [policyOf, setPeer, AList.lookup_insert]
      rfl
    · exact fun other different => AList.lookup_insert_ne different
    · intro endpoint
      by_cases same : endpoint = chosen
      · subst same
        rw [LeaseBook.refs_of_lease replaces.sole]
        exact LeaseBook.refs_of_lease replaces.counted
      · exact LeaseBook.refs_congr (replaces.otherLeases endpoint same)

/-- The policy of a peer can be changed while its endpoint has no other holder. -/
theorem changeFECPolicy_of_sole (accounted : i.Accounted)
    (found : i.peers.lookup publicKey = some peer)
    (sole : ∀ endpoint, peer.status.selectedEndpoint = some endpoint →
      i.bind.fec.book.refs endpoint = 1) (new : FECPolicy) :
    ∃ after, i.changeFECPolicy publicKey peer peer.fecPolicy new = .ok after := by
  unfold changeFECPolicy
  cases selected : peer.status.selectedEndpoint with
  | none => exact ⟨_, rfl⟩
  | some endpoint =>
    obtain ⟨valid, canonical, _⟩ :=
      (accounted.holds publicKey peer found).selected endpoint selected
    have lease := accounted.lease_of_selected found selected
    rw [sole endpoint selected] at lease
    dsimp only
    rw [FECLeases.replace_of_sole valid canonical lease]
    exact ⟨_, rfl⟩

/-- The endpoint of a peer whose policy was changed has no other holder. -/
theorem sole_of_changeFECPolicy (accounted : i.Accounted)
    (found : i.peers.lookup publicKey = some peer)
    (changed : i.changeFECPolicy publicKey peer peer.fecPolicy new = .ok after)
    {endpoint : AddrPort} (selected : peer.status.selectedEndpoint = some endpoint) :
    i.bind.fec.book.refs endpoint = 1 := by
  cases changeFECPolicy_changes changed with
  | alone unselected =>
    rw [selected] at unselected
    cases unselected
  | leased same replaced =>
    rw [selected] at same
    cases same
    obtain ⟨valid, canonical, _⟩ :=
      (accounted.holds publicKey peer found).selected endpoint selected
    obtain ⟨chosen, parsed, replaces⟩ := FECLeases.replace_replaces replaced
    obtain rfl := canonical_of_valid valid canonical parsed
    exact LeaseBook.refs_of_lease replaces.sole

/-- A change that was applied and can be undone. -/
def Ready (i : Instance) (change : FECChange) : Prop :=
  ∃ peer, i.peers.lookup change.publicKey = some peer ∧ peer.fecPolicy = change.after ∧
    ∀ endpoint, peer.status.selectedEndpoint = some endpoint → i.bind.fec.book.refs endpoint = 1

instance (i : Instance) (change : FECChange) : Decidable (i.Ready change) :=
  inferInstanceAs (Decidable (∃ peer ∈ i.peers.lookup change.publicKey,
    peer.fecPolicy = change.after ∧ ∀ endpoint ∈ peer.status.selectedEndpoint,
      i.bind.fec.book.refs endpoint = 1))

theorem Ready.policyOf (ready : i.Ready change) :
    i.policyOf change.publicKey = some change.after := by
  obtain ⟨peer, found, policy, _⟩ := ready
  rw [Instance.policyOf, found, Option.map_some, policy]

theorem Ready.sets (ready : i.Ready change) (sets : Sets i publicKey new after)
    (different : change.publicKey ≠ publicKey) : after.Ready change := by
  obtain ⟨peer, found, policy, sole⟩ := ready
  refine ⟨peer, by rw [sets.others _ different, found], policy, ?_⟩
  intro endpoint selected
  rw [sets.refs, sole endpoint selected]

theorem restoreFECChange_ends (i : Instance) (change : FECChange) :
    ((i.restoreFECChange change).1 = [] ∧
        Sets i change.publicKey change.before (i.restoreFECChange change).2 ∧
        (i.Accounted → i.Ready change)) ∨
      ((i.restoreFECChange change).1 ≠ [] ∧ (i.restoreFECChange change).2 = i) := by
  unfold restoreFECChange
  split
  · exact .inr ⟨nofun, rfl⟩
  next peer found =>
  split
  · exact .inr ⟨nofun, rfl⟩
  next current =>
  rw [Decidable.not_not] at current
  split
  · exact .inr ⟨nofun, rfl⟩
  · next changed =>
    rw [← current] at changed
    exact .inl ⟨rfl, changeFECPolicy_sets found changed, fun accounted =>
      ⟨peer, found, current, fun _ => sole_of_changeFECPolicy accounted found changed⟩⟩

theorem restoreFECChange_of_ready (accounted : i.Accounted) (ready : i.Ready change) :
    (i.restoreFECChange change).1 = [] := by
  obtain ⟨peer, found, policy, sole⟩ := ready
  obtain ⟨later, changed⟩ := changeFECPolicy_of_sole accounted found sole change.before
  rw [policy] at changed
  simp [restoreFECChange, found, policy, changed]

theorem applyFECChange_applies (accounted : i.Accounted)
    (done : i.applyFECChange change = .ok after) :
    Sets i change.publicKey change.after after ∧ after.Ready change := by
  unfold applyFECChange at done
  split at done
  · cases done
  next peer found =>
  split at done
  · cases done
  next current =>
  rw [Decidable.not_not] at current
  split at done
  · cases done
  split at done
  · cases done
  next changed =>
  cases done
  rw [← current] at changed
  have sets := changeFECPolicy_sets found changed
  refine ⟨sets, ?_⟩
  obtain ⟨now, lookup, policy⟩ := Option.map_eq_some_iff.mp sets.here
  refine ⟨now, lookup, policy, ?_⟩
  intro endpoint selected
  obtain ⟨before, lookupBefore, same⟩ := (changeFECPolicy_preserves found changed).lookup lookup
  rw [found] at lookupBefore
  cases lookupBefore
  have status : peer.unleased.status = now.unleased.status := congrArg PeerRuntime.status same
  change peer.status = now.status at status
  rw [sets.refs]
  exact sole_of_changeFECPolicy accounted found changed (by rw [status, selected])

/-! ## All changes of a transaction -/

theorem rollbackFECChanges_of_ready (accounted : i.Accounted)
    (nodup : (changes.map FECChange.publicKey).Nodup)
    (ready : ∀ change ∈ changes, i.Ready change) : (rollbackFECChanges changes i).1 = [] := by
  induction changes generalizing i with
  | nil => rfl
  | cons change rest ih =>
    obtain ⟨new, nodup⟩ := nodup_cons.mp nodup
    have first := restoreFECChange_of_ready accounted (ready change mem_cons_self)
    rcases restoreFECChange_ends i change with ⟨_, sets, _⟩ | ⟨failed, _⟩
    · unfold rollbackFECChanges
      dsimp only
      rw [first]
      refine ih (sets.accounted accounted) nodup ?_
      intro other listed
      refine (ready other (mem_cons_of_mem _ listed)).sets sets ?_
      exact fun same => new (mem_map.mpr ⟨other, listed, same⟩)
    · exact absurd first failed

theorem rollbackFECChanges_of_none (accounted : i.Accounted)
    (stuck : ∀ change ∈ changes, ¬i.Ready change) : (rollbackFECChanges changes i).2 = i := by
  induction changes with
  | nil => rfl
  | cons change rest ih =>
    obtain ⟨first, stuck⟩ := forall_mem_cons.mp stuck
    rcases restoreFECChange_ends i change with ⟨_, _, ready⟩ | ⟨_, same⟩
    · exact absurd (ready accounted) first
    · unfold rollbackFECChanges
      dsimp only
      rw [same]
      exact ih stuck

/-- What a list of changes leaves alone. -/
def Spares (changes : List FECChange) (i after : Instance) : Prop :=
  ∀ publicKey, publicKey ∉ changes.map FECChange.publicKey →
    after.policyOf publicKey = i.policyOf publicKey

structure Undone (changes : List FECChange) (i after : Instance) : Prop where
  restored : ∀ change ∈ changes, after.policyOf change.publicKey = some change.before
  spares : Spares changes i after

theorem rollbackFECChanges_undone (nodup : (changes.map FECChange.publicKey).Nodup)
    (done : rollbackFECChanges changes i = ([], after)) : Undone changes i after := by
  induction changes generalizing i with
  | nil =>
    cases done
    exact ⟨nofun, fun _ _ => rfl⟩
  | cons change rest ih =>
    obtain ⟨new, nodup⟩ := nodup_cons.mp nodup
    unfold rollbackFECChanges at done
    simp only [Prod.mk.injEq, append_eq_nil_iff] at done
    obtain ⟨⟨first, later⟩, last⟩ := done
    rcases restoreFECChange_ends i change with ⟨_, sets, _⟩ | ⟨failed, _⟩
    · obtain ⟨restored, spares⟩ := ih nodup (Prod.ext later last)
      refine ⟨?_, ?_⟩
      · intro other listed
        rcases mem_cons.mp listed with rfl | listed
        · rw [spares other.publicKey new, sets.here]
        · exact restored other listed
      · intro name unlisted
        rw [map_cons, mem_cons, not_or] at unlisted
        rw [spares name unlisted.2, policyOf_congr (sets.others name unlisted.1)]
    · exact absurd first failed

theorem rollbackFECChanges_spares (changes : List FECChange) (i : Instance) :
    Spares changes i (rollbackFECChanges changes i).2 := by
  induction changes generalizing i with
  | nil => exact fun _ _ => rfl
  | cons change rest ih =>
    intro name unlisted
    rw [map_cons, mem_cons, not_or] at unlisted
    unfold rollbackFECChanges
    refine (ih _ name unlisted.2).trans ?_
    rcases restoreFECChange_ends i change with ⟨_, sets, _⟩ | ⟨_, same⟩
    · exact policyOf_congr (sets.others name unlisted.1)
    · rw [same]

/-- The loop of a commit either makes all changes, or none in the end. -/
theorem applyFECChanges_ends (accounted : i.Accounted)
    (nodup : ((applied ++ changes).map FECChange.publicKey).Nodup)
    (ready : ∀ change ∈ applied, i.Ready change)
    (unchanged : ∀ change ∈ changes, i.policyOf change.publicKey = some change.before)
    (done : applyFECChanges changes applied i = (errs, after)) :
    Spares (applied ++ changes) i after ∧
      ((errs = [] ∧ ∀ change ∈ applied ++ changes, after.Ready change) ∨
        (errs ≠ [] ∧ ∀ change ∈ applied ++ changes,
          after.policyOf change.publicKey = some change.before)) := by
  induction changes generalizing i applied with
  | nil =>
    cases done
    rw [append_nil]
    exact ⟨fun _ _ => rfl, .inl ⟨rfl, ready⟩⟩
  | cons change rest ih =>
    have perm : (applied ++ change :: rest).Perm ((change :: applied) ++ rest) := perm_middle
    have names := (perm.map publicKey).nodup_iff.mp nodup
    obtain ⟨new, _⟩ := nodup_cons.mp names
    have apart : ∀ other ∈ applied ++ rest, other.publicKey ≠ change.publicKey :=
      fun other listed same => new (mem_map.mpr ⟨other, listed, same⟩)
    unfold applyFECChanges at done
    split at done
    · next j changed =>
      obtain ⟨sets, ready'⟩ := applyFECChange_applies accounted changed
      have others : ∀ other ∈ rest, j.policyOf other.publicKey = some other.before := by
        intro other listed
        rw [policyOf_congr (sets.others _ (apart other (mem_append_right _ listed)))]
        exact unchanged other (mem_cons_of_mem _ listed)
      have still : ∀ other ∈ change :: applied, j.Ready other := by
        intro other listed
        rcases mem_cons.mp listed with rfl | listed
        · exact ready'
        · exact (ready other listed).sets sets (apart other (mem_append_left _ listed))
      obtain ⟨spares, ends⟩ := ih (sets.accounted accounted) names still others done
      refine ⟨?_, ?_⟩
      · intro name unlisted
        have unlisted' := fun listed => unlisted ((perm.map publicKey).mem_iff.mpr listed)
        rw [spares name unlisted']
        refine policyOf_congr (sets.others name ?_)
        rintro rfl
        exact unlisted' mem_cons_self
      · rcases ends with ⟨ok, all⟩ | ⟨failed, all⟩
        · exact .inl ⟨ok, fun other listed => all other (perm.mem_iff.mp listed)⟩
        · exact .inr ⟨failed, fun other listed => all other (perm.mem_iff.mp listed)⟩
    next err refused =>
    -- What was applied so far is undone, and that does not fail.
    have nodupApplied : (applied.map publicKey).Nodup := by
      rw [map_append] at nodup
      exact (nodup_append.mp nodup).1
    have clean := rollbackFECChanges_of_ready accounted nodupApplied ready
    cases done
    obtain ⟨restored, spares⟩ := rollbackFECChanges_undone nodupApplied (Prod.ext clean rfl)
    have unlistedApplied : ∀ name, name ∉ (applied ++ change :: rest).map
        publicKey → name ∉ applied.map publicKey := by
      intro name unlisted listed
      rw [map_append] at unlisted
      exact unlisted (mem_append_left _ listed)
    refine ⟨fun name unlisted => spares name (unlistedApplied name unlisted), .inr ⟨nofun, ?_⟩⟩
    intro other listed
    rcases mem_append.mp listed with listed | listed
    · exact restored other listed
    · rw [spares other.publicKey ?_]
      · exact unchanged other listed
      · intro clash
        rw [map_append] at nodup
        exact (nodup_append.mp nodup).2.2 _ clash _ (mem_map.mpr ⟨other, listed, rfl⟩) rfl

structure Tracks (i : Instance) (transaction : PeerTransaction) : Prop where
  unapplied : transaction.fecApplied = false → ∀ change ∈ transaction.fecChanges,
    i.policyOf change.publicKey = some change.before
  applied : transaction.fecApplied = true → ∀ change ∈ transaction.fecChanges,
    i.policyOf change.publicKey = some change.after

theorem Tracks.congr {transaction other : PeerTransaction} (tracks : i.Tracks transaction)
    (fecApplied : other.fecApplied = transaction.fecApplied)
    (fecChanges : other.fecChanges = transaction.fecChanges)
    (same : ∀ change ∈ transaction.fecChanges,
      after.policyOf change.publicKey = i.policyOf change.publicKey) :
    after.Tracks other := by
  rw [← fecChanges] at same
  refine ⟨?_, ?_⟩
  · rw [fecApplied]
    intro unapplied change listed
    rw [same change listed]
    exact tracks.unapplied unapplied change (by rw [← fecChanges]; exact listed)
  · rw [fecApplied]
    intro applied change listed
    rw [same change listed]
    exact tracks.applied applied change (by rw [← fecChanges]; exact listed)

variable {transaction : PeerTransaction}

theorem applyPeerFECChanges_tracks (accounted : i.Accounted)
    (wellFormed : transaction.WellFormed) (unapplied : transaction.fecApplied = false)
    (tracks : i.Tracks transaction)
    (done : i.applyPeerFECChanges transaction = (errs, changed, after)) :
    after.Tracks changed ∧ Spares transaction.fecChanges i after ∧
      ((errs = [] ∧ ∀ change ∈ changed.fecChanges, after.Ready change) ∨
        (errs ≠ [] ∧ changed.fecApplied = false)) := by
  unfold applyPeerFECChanges at done
  split at done
  · next already =>
    cases done
    have empty : ∀ change, change ∉ transaction.fecChanges := by
      have none : transaction.fecChanges = [] := by simpa [unapplied] using already
      simp [none]
    exact ⟨⟨nofun, fun _ change listed => absurd listed (empty change)⟩, fun _ _ => rfl,
      .inl ⟨rfl, fun change listed => absurd listed (empty change)⟩⟩
  have names : (([] ++ transaction.fecChanges).map publicKey).Nodup := wellFormed.changes_nodup
  cases run : applyFECChanges transaction.fecChanges [] i with
  | mk failures later =>
    obtain ⟨spares, ends⟩ := applyFECChanges_ends accounted names
      (fun _ listed => absurd listed not_mem_nil) (tracks.unapplied unapplied) run
    rw [run] at done
    rcases ends with ⟨rfl, ready⟩ | ⟨failed, all⟩
    · cases done
      exact ⟨⟨nofun, fun _ change listed => (ready change listed).policyOf⟩, spares,
        .inl ⟨rfl, ready⟩⟩
    · cases failures with
      | nil => exact absurd rfl failed
      | cons err rest =>
        cases done
        exact ⟨⟨fun _ => all, fun applied => nomatch unapplied.symm.trans applied⟩, spares,
          .inr ⟨nofun, unapplied⟩⟩

/-- The changes that a pass undoes in the order of the source. -/
theorem reverse_nodup (wellFormed : transaction.WellFormed) :
    (transaction.fecChanges.reverse.map FECChange.publicKey).Nodup := by
  rw [map_reverse, nodup_reverse]
  exact wellFormed.changes_nodup

theorem rollbackPeerFECChanges_eq (applied : transaction.fecApplied = true) :
    i.rollbackPeerFECChanges transaction = ((rollbackFECChanges transaction.fecChanges.reverse i).1,
        if (rollbackFECChanges transaction.fecChanges.reverse i).1 = [] then
          { transaction with fecApplied := false }
        else transaction,
        (rollbackFECChanges transaction.fecChanges.reverse i).2) := by
  unfold rollbackPeerFECChanges
  rw [if_pos applied]
  split <;> simp [*]

theorem rollbackPeerFECChanges_unapplied (unapplied : transaction.fecApplied = false) :
    i.rollbackPeerFECChanges transaction = ([], transaction, i) := by
  simp [rollbackPeerFECChanges, unapplied]

theorem rollbackPeerFECChanges_of_ready (accounted : i.Accounted)
    (wellFormed : transaction.WellFormed) (ready : transaction.fecApplied = true →
      ∀ change ∈ transaction.fecChanges, i.Ready change) :
    (i.rollbackPeerFECChanges transaction).1 = [] := by
  cases applied : transaction.fecApplied with
  | false => rw [rollbackPeerFECChanges_unapplied applied]
  | true =>
    rw [rollbackPeerFECChanges_eq applied]
    exact rollbackFECChanges_of_ready accounted (reverse_nodup wellFormed)
      fun change listed => ready applied change (mem_reverse.mp listed)

theorem rollbackPeerFECChanges_spares
    (done : i.rollbackPeerFECChanges transaction = (errs, changed, after)) :
    Spares transaction.fecChanges i after := by
  cases applied : transaction.fecApplied with
  | false =>
    rw [rollbackPeerFECChanges_unapplied applied] at done
    cases done
    exact fun _ _ => rfl
  | true =>
    rw [rollbackPeerFECChanges_eq applied] at done
    cases done
    intro name unlisted
    refine rollbackFECChanges_spares _ i name ?_
    rwa [map_reverse, mem_reverse]

theorem rollbackPeerFECChanges_undone
    (wellFormed : transaction.WellFormed) (tracks : i.Tracks transaction)
    (done : i.rollbackPeerFECChanges transaction = ([], changed, after)) :
    changed.fecApplied = false ∧ changed.fecChanges = transaction.fecChanges ∧
      Undone transaction.fecChanges i after := by
  have spares := rollbackPeerFECChanges_spares done
  cases applied : transaction.fecApplied with
  | false =>
    rw [rollbackPeerFECChanges_unapplied applied] at done
    cases done
    exact ⟨applied, rfl, tracks.unapplied applied, spares⟩
  | true =>
    rw [rollbackPeerFECChanges_eq applied] at done
    obtain ⟨clean, rest⟩ := Prod.mk.inj done
    rw [if_pos clean] at rest
    cases rest
    refine ⟨rfl, rfl, fun change listed => ?_, spares⟩
    exact (rollbackFECChanges_undone (reverse_nodup wellFormed) (Prod.ext clean rfl)).restored
      change (mem_reverse.mpr listed)

/-- The changes that are applied can all be undone, or none of them. -/
def AllOrNone (i : Instance) (transaction : PeerTransaction) : Prop :=
  transaction.fecApplied = true → (∀ change ∈ transaction.fecChanges, i.Ready change) ∨
      ∀ change ∈ transaction.fecChanges, ¬i.Ready change

instance (i : Instance) (transaction : PeerTransaction) : Decidable (i.AllOrNone transaction) :=
  inferInstanceAs (Decidable (_ → _))

theorem rollbackPeerFECChanges_tracks (accounted : i.Accounted)
    (wellFormed : transaction.WellFormed) (tracks : i.Tracks transaction)
    (whole : i.AllOrNone transaction)
    (done : i.rollbackPeerFECChanges transaction = (errs, changed, after)) :
    after.Tracks changed := by
  cases errs with
  | nil =>
    obtain ⟨unapplied, sameChanges, undone⟩ := rollbackPeerFECChanges_undone wellFormed tracks done
    refine ⟨fun _ => by rw [sameChanges]; exact undone.restored, ?_⟩
    intro applied
    rw [unapplied] at applied
    cases applied
  | cons err rest =>
    cases applied : transaction.fecApplied with
    | false =>
      rw [rollbackPeerFECChanges_unapplied applied] at done
      cases done
    | true =>
      rcases whole applied with ready | stuck
      · have clean := rollbackPeerFECChanges_of_ready accounted wellFormed fun _ => ready
        rw [done] at clean
        cases clean
      -- Nothing was undone, and the transaction stays as it was.
      · rw [rollbackPeerFECChanges_eq applied, rollbackFECChanges_of_none accounted
          fun change listed => stuck change (mem_reverse.mp listed)] at done
        obtain ⟨failed, rest⟩ := Prod.mk.inj done
        rw [failed, if_neg (cons_ne_nil _ _)] at rest
        cases rest
        exact tracks

/-! ## A transaction from its preparation on -/

def Pending (i : Instance) (transactionID : String) : Prop :=
  (i.peerTransactions.lookup transactionID).any (fun transaction => decide transaction.Open) = true

instance (i : Instance) (transactionID : String) : Decidable (i.Pending transactionID) :=
  inferInstanceAs (Decidable (_ = true))

theorem Pending.open_ (pending : i.Pending transactionID) :
    ∃ transaction, i.peerTransactions.lookup transactionID = some transaction ∧
      transaction.Open := by
  rw [Pending, Option.any_eq_true] at pending
  obtain ⟨transaction, found, isOpen⟩ := pending
  exact ⟨transaction, found, of_decide_eq_true isOpen⟩

theorem not_pending_settled
    (settled : transaction.state = .rolledBack ∨ transaction.state = .finalized) :
    ¬((i.setTransaction transactionID transaction).deactivate transactionID).Pending
      transactionID := by
  intro pending
  obtain ⟨found, lookup, isOpen⟩ := pending.open_
  have same : ((i.setTransaction transactionID transaction).deactivate
      transactionID).peerTransactions.lookup transactionID = some transaction := by
    unfold deactivate
    split
    · exact AList.lookup_insert _
    · exact AList.lookup_insert _
  rw [same] at lookup
  cases lookup
  rcases isOpen with state | state <;> rcases settled with other | other <;>
    rw [state] at other <;> cases other

/-- The texts of the peers that a list of mutations adds. -/
def addedTexts (mutations : List PeerMutation) : List String :=
  (mutations.filter fun mutation => mutation.operation = .add).map PeerMutation.publicKey

/-- The transaction is open with the changes it was prepared with, and it knows
whether they are applied.  All other peers have the policy they had before. -/
structure Stands (start : Instance) (transactionID : String) (changes : List FECChange)
    (mutations : List PeerMutation) (i : Instance) (transaction : PeerTransaction) : Prop where
  found : i.peerTransactions.lookup transactionID = some transaction
  isOpen : transaction.Open
  sameChanges : transaction.fecChanges = changes
  sameMutations : transaction.mutations = mutations
  tracks : i.Tracks transaction
  prepared : transaction.state = .prepared → transaction.fecApplied = false
  others : ∀ publicKey, publicKey ∉ changes.map FECChange.publicKey →
    publicKey ∉ addedTexts mutations → i.policyOf publicKey = start.policyOf publicKey

variable {start : Instance} {mutations : List PeerMutation} {transaction : PeerTransaction}

section

variable (stands : Stands start transactionID changes mutations i transaction)

include stands

/-- Calls that have nothing to do with the transaction. -/
theorem Stands.preserves (preserves : Preserves PeerRuntime.fecPolicy i after) :
    Stands start transactionID changes mutations after transaction := by
  have transactions : after.peerTransactions = i.peerTransactions :=
    congrArg Ledger.peerTransactions preserves.ledger
  refine ⟨by rw [transactions]; exact stands.found, stands.isOpen, stands.sameChanges,
    stands.sameMutations, stands.tracks.congr rfl rfl fun _ _ => preserves.peers _,
    stands.prepared, ?_⟩
  intro name unchanged notAdded
  exact (preserves.peers name).trans (stands.others name unchanged notAdded)

theorem Stands.unique (orderly : i.ledger.Orderly) {other : PeerTransaction}
    (found : i.peerTransactions.lookup otherID = some other) (isOpen : other.Open) :
    otherID = transactionID ∧ other = transaction := by
  have same : otherID = transactionID := (orderly.single _ _ found isOpen).symm.trans
    (orderly.single _ _ stands.found stands.isOpen)
  subst same
  have lookup := stands.found
  rw [found] at lookup
  exact ⟨rfl, Option.some.inj lookup⟩

/-- The transaction is stored after a pass over its changes. -/
theorem Stands.store {changed : PeerTransaction} (applies : Applies i transaction changed after)
    (tracks : after.Tracks changed) (spares : Spares transaction.fecChanges i after)
    (prepared : changed.state = .prepared → changed.fecApplied = false) :
    Stands start transactionID changes mutations (after.setTransaction transactionID changed)
      changed := by
  obtain ⟨fecApplied, rfl⟩ := applies.same
  refine ⟨AList.lookup_insert _, stands.isOpen, stands.sameChanges, stands.sameMutations,
    tracks.congr rfl rfl fun _ _ => rfl, prepared, ?_⟩
  intro name unchanged notAdded
  refine (spares name ?_).trans (stands.others name unchanged notAdded)
  rw [stands.sameChanges]
  exact unchanged

end

theorem policyOf_addPeers (transaction : PeerTransaction)
    (notAdded : publicKey ∉ addedTexts mutations) :
    (addPeers transaction mutations i).policyOf publicKey = i.policyOf publicKey := by
  induction mutations generalizing i with
  | nil => rfl
  | cons mutation rest ih =>
    have restNotAdded : publicKey ∉ addedTexts rest := by
      intro listed
      obtain ⟨other, listed, same⟩ := mem_map.mp listed
      obtain ⟨listed, isAdd⟩ := mem_filter.mp listed
      exact notAdded (mem_map.mpr ⟨other, mem_filter.mpr ⟨mem_cons_of_mem _ listed, isAdd⟩, same⟩)
    unfold addPeers
    split
    · next isAdd _ =>
      have different : publicKey ≠ mutation.publicKey := by
        rintro rfl
        exact notAdded (mem_map.mpr
          ⟨mutation, mem_filter.mpr ⟨mem_cons_self, by simp [isAdd]⟩, rfl⟩)
      rw [ih restNotAdded]
      exact policyOf_congr (AList.lookup_insert_ne different)
    · exact ih restNotAdded

theorem not_added_of_update (wellFormed : transaction.WellFormed) {mutation : PeerMutation}
    (listed : mutation ∈ transaction.mutations) (isUpdate : mutation.operation = .update) :
    mutation.publicKey ∉ addedTexts transaction.mutations := by
  intro added
  obtain ⟨other, otherListed, same⟩ := mem_map.mp added
  obtain ⟨otherListed, isAdd⟩ := mem_filter.mp otherListed
  have texts := Device.texts_nodup wellFormed.converted wellFormed.nodup
  have equal := inj_on_of_nodup_map texts otherListed listed same
  rw [equal, isUpdate] at isAdd
  cases isAdd

def rollsBack : CoreCall → Option String
  | .rollbackPeerSet transactionID _ => some transactionID
  | _ => none

/-- The call rolls back no transaction only some of whose changes can be undone. -/
def WholePass (i : Instance) (call : CoreCall) : Prop :=
  ∀ transactionID ∈ rollsBack call, ∀ transaction ∈ i.peerTransactions.lookup transactionID,
    transaction.Open → i.AllOrNone transaction

instance (i : Instance) (call : CoreCall) : Decidable (WholePass i call) :=
  inferInstanceAs (Decidable (∀ transactionID ∈ rollsBack call,
    ∀ transaction ∈ i.peerTransactions.lookup transactionID,
      transaction.Open → i.AllOrNone transaction))

section

variable (stands : Stands start transactionID changes mutations i transaction)
  (orderly : i.ledger.Orderly)

include stands orderly

theorem Stands.commit (accounted : i.Accounted)
    (done : i.commitPeerSet otherID fault = (errs, after)) :
    ∃ transaction, Stands start transactionID changes mutations after transaction := by
  cases commitPeerSet_commits done with
  | refused | already => exact ⟨_, stands⟩
  | unapplied found state applied =>
    obtain ⟨rfl, rfl⟩ := stands.unique orderly found (.inl state)
    obtain ⟨tracks, spares, ends⟩ := applyPeerFECChanges_tracks accounted
      (orderly.wellFormed _ _ found) (stands.prepared state) stands.tracks applied
    have unapplied := ends.resolve_left fun ⟨clean, _⟩ => nomatch clean
    exact ⟨_, stands.store (applyPeerFECChanges_applies applied) tracks spares fun _ => unapplied.2⟩
  | @reverted _ changed restored err failures mid later found state applied refused reverted =>
    obtain ⟨rfl, rfl⟩ := stands.unique orderly found (.inl state)
    have wellFormed := orderly.wellFormed _ _ found
    have first := applyPeerFECChanges_applies applied
    obtain ⟨tracks, spares, ends⟩ := applyPeerFECChanges_tracks accounted wellFormed
      (stands.prepared state) stands.tracks applied
    -- Every change was just made, and so it can be undone.
    obtain ⟨-, ready⟩ := ends.resolve_right fun ⟨failed, _⟩ => failed rfl
    have changedFormed := applied_wellFormed wellFormed first.same
    have path : Path (fun _ _ _ => True) i mid := first.retunes.path
    have midAccounted : mid.Accounted :=
      path.holds (fun _ _ moves held => held.move moves) accounted
    have clean := rollbackPeerFECChanges_of_ready midAccounted changedFormed fun _ => ready
    rw [reverted] at clean
    cases clean
    obtain ⟨unapplied, -, -⟩ := rollbackPeerFECChanges_undone changedFormed tracks reverted
    have again := rollbackPeerFECChanges_tracks midAccounted changedFormed tracks
      (fun _ => .inl ready) reverted
    have spares' := rollbackPeerFECChanges_spares reverted
    refine ⟨_, stands.store (first.trans (rollbackPeerFECChanges_applies reverted)) again ?_
      fun _ => unapplied⟩
    obtain ⟨_, rfl⟩ := first.same
    exact fun name unlisted => (spares' name unlisted).trans (spares name unlisted)
  | @committed own changed prepared device mid found state applied accepted =>
    obtain ⟨rfl, rfl⟩ := stands.unique orderly found (.inl state)
    have wellFormed := orderly.wellFormed _ _ found
    obtain ⟨tracks, spares, -⟩ := applyPeerFECChanges_tracks accounted wellFormed
      (stands.prepared state) stands.tracks applied
    obtain ⟨fecApplied, rfl⟩ := (applyPeerFECChanges_applies applied).same
    have same : ∀ name, name ∉ addedTexts own.mutations →
        (addPeers { own with fecApplied } own.mutations { mid with device }).policyOf name =
          mid.policyOf name :=
      fun name notAdded => policyOf_addPeers _ notAdded
    refine ⟨_, AList.lookup_insert _, .inr rfl, stands.sameChanges, stands.sameMutations, ?_, nofun,
      ?_⟩
    · refine tracks.congr rfl rfl ?_
      intro change listed
      obtain ⟨mutation, mutated, isUpdate, text⟩ := wellFormed.changes_update change listed
      rw [← text]
      exact same _ (not_added_of_update wellFormed mutated isUpdate)
    · intro name unchanged notAdded
      rw [← stands.sameMutations] at notAdded
      rw [← stands.sameChanges] at unchanged
      refine (same name notAdded).trans ((spares name unchanged).trans ?_)
      exact stands.others name (by rw [← stands.sameChanges]; exact unchanged)
        (by rw [← stands.sameMutations]; exact notAdded)

theorem Stands.rollback (accounted : i.Accounted)
    (whole : WholePass i (.rollbackPeerSet otherID fault))
    (done : i.rollbackPeerSet otherID fault = (errs, after))
    (pending : after.Pending transactionID) :
    ∃ transaction, Stands start transactionID changes mutations after transaction := by
  have wellFormed := orderly.wellFormed _ _ stands.found
  have store : ∀ {changed : PeerTransaction} {failures : Errors} {later : Instance},
      otherID = transactionID → i.rollbackPeerFECChanges transaction = (failures, changed, later) →
      Stands start transactionID changes mutations (later.setTransaction transactionID changed)
        changed := by
    rintro changed failures later rfl reverted
    have applies := rollbackPeerFECChanges_applies reverted
    have tracks := rollbackPeerFECChanges_tracks accounted wellFormed stands.tracks
      (whole _ rfl _ stands.found stands.isOpen) reverted
    refine stands.store applies tracks (rollbackPeerFECChanges_spares reverted) ?_
    intro state
    have unapplied : transaction.fecApplied = false := by
      obtain ⟨_, rfl⟩ := applies.same
      exact stands.prepared state
    cases (rollbackPeerFECChanges_unapplied unapplied).symm.trans reverted
    exact unapplied
  cases rollbackPeerSet_rollsBack done with
  | refused | already => exact ⟨_, stands⟩
  | blocked found state reverted | stuck found state reverted =>
    obtain ⟨rfl, rfl⟩ := stands.unique orderly found state
    exact ⟨_, store rfl reverted⟩
  | withdrawn found state reverted accepted =>
    obtain ⟨rfl, rfl⟩ := stands.unique orderly found (.inl state)
    exact absurd pending (not_pending_settled (.inl rfl))
  | undone found state reverted accepted =>
    obtain ⟨rfl, rfl⟩ := stands.unique orderly found (.inr state)
    exact absurd pending (not_pending_settled (.inl rfl))

theorem Stands.prepare {request : PeerSetRequest}
    (done : i.preparePeerSet request fault = (errs, after)) :
    Stands start transactionID changes mutations after transaction := by
  cases preparePeerSet_prepares done with
  | refused | repeated => exact stands
  | failed planned => exact stands.preserves (failed_rekeys planned).frame.preserves
  | opened valid fresh idle accepted planned =>
    have active := orderly.single _ _ stands.found stands.isOpen
    exact absurd (active.symm.trans idle) (orderly.named _ _ stands.found)

theorem Stands.finalize (done : i.finalizePeerSet otherID fault = (errs, after))
    (pending : after.Pending transactionID) :
    Stands start transactionID changes mutations after transaction := by
  cases finalizePeerSet_finalizes done with
  | refused | already => exact stands
  | finalized found state accepted =>
    obtain ⟨rfl, rfl⟩ := stands.unique orderly found (.inr state)
    exact absurd pending (not_pending_settled (.inr rfl))

theorem Stands.step (accounted : i.Accounted) {call : CoreCall} (whole : WholePass i call)
    (pending : (i.step call).Pending transactionID) :
    ∃ transaction, Stands start transactionID changes mutations (i.step call) transaction := by
  rcases step_cases i call with same | ⟨request, fault, rfl⟩ | ⟨otherID, fault, rfl⟩ |
    ⟨otherID, fault, rfl⟩ | ⟨otherID, fault, rfl⟩
  · exact ⟨_, stands.preserves same⟩
  · exact ⟨_, stands.prepare orderly rfl⟩
  · exact stands.commit orderly accounted rfl
  · exact stands.rollback orderly accounted whole rfl pending
  · exact ⟨_, stands.finalize orderly rfl pending⟩

end

theorem stands_of_prepare {request : PeerSetRequest}
    (fresh : i.peerTransactions.lookup request.transactionID = none)
    (done : i.preparePeerSet request fault = ([], after)) :
    validTransactionID request.transactionID = true ∧ ∃ changes transaction,
      Stands i request.transactionID changes request.mutations after transaction ∧
      ∀ change ∈ changes, change.before ≠ change.after ∧
        i.policyOf change.publicKey = some change.before ∧
        ∃ mutation ∈ request.mutations, mutation.operation = .update ∧
          mutation.publicKey = change.publicKey := by
  cases preparePeerSet_prepares done with
  | repeated found =>
    rw [fresh] at found
    cases found
  | @opened prepared transaction later valid _ idle accepted planned =>
    have plans := preparePeerTransportKeys_plans planned
    have frame := (preparePeerTransportKeys_rekeys planned).frame
    obtain ⟨changes, equal, _, each⟩ := plans.changes
    have isOpen : transaction.Open := .inl plans.state
    have sameChanges : transaction.fecChanges = changes := equal
    have policies : ∀ name, later.policyOf name = i.policyOf name :=
      fun name => policyOf_congr (by rw [frame.peers])
    have before : ∀ change ∈ changes, i.policyOf change.publicKey = some change.before := by
      intro change listed
      obtain ⟨_, _, peer, found, policy⟩ := each change listed
      rw [policyOf, found, Option.map_some, policy]
    have unapplied : transaction.fecApplied = false := plans.fecApplied
    refine ⟨valid, changes, transaction, ⟨?_, isOpen, sameChanges, plans.mutations, ⟨?_, ?_⟩,
      fun _ => unapplied, fun name _ _ => policies name⟩, ?_⟩
    · exact (trimLoop_forgets _ _).2 _ _ (AList.lookup_insert _) isOpen
    · intro _ change listed
      rw [sameChanges] at listed
      exact (policies _).trans (before change listed)
    · intro applied
      rw [unapplied] at applied
      cases applied
    · intro change listed
      obtain ⟨differ, mutated, _⟩ := each change listed
      exact ⟨differ, before change listed, mutated⟩

/-- The calls while the transaction is open, with no rollback that can only undo some of its
changes. -/
def WhilePending (transactionID : String) (i : Instance) (call : CoreCall) : Prop :=
  i.Pending transactionID ∧ WholePass i call

instance (transactionID : String) (i : Instance) (call : CoreCall) :
    Decidable (WhilePending transactionID i call) :=
  inferInstanceAs (Decidable (_ ∧ _))

theorem stands_of_reaches (orderly : start.ledger.Orderly) (accounted : start.Accounted)
    {origin : Instance} (stands : Stands origin transactionID changes mutations start transaction)
    (reached : Reaches (WhilePending transactionID) start i) :
    i.ledger.Orderly ∧ i.Accounted ∧ (i.Pending transactionID →
      ∃ transaction, Stands origin transactionID changes mutations i transaction) := by
  induction reached with
  | refl => exact ⟨orderly, accounted, fun _ => ⟨transaction, stands⟩⟩
  | call reached call permitted ih =>
    obtain ⟨orderly, accounted, stands⟩ := ih
    refine ⟨orderly_step orderly call, accounted_step accounted orderly call, ?_⟩
    intro pending
    obtain ⟨_, stands⟩ := stands permitted.1
    exact stands.step orderly accounted permitted.2 pending

/-! ## The rollback -/

/-- A rollback that succeeds has restored every policy, and one succeeds as soon as
the endpoints of the peers with another policy have no other holders. -/
structure RestoresPolicies (start : Instance) (request : PeerSetRequest) (i : Instance) : Prop where
  restored : ∀ fault after, i.rollbackPeerSet request.transactionID fault = ([], after) →
    ∀ mutation ∈ request.mutations, mutation.operation = .update →
      after.policyOf mutation.publicKey = start.policyOf mutation.publicKey ∧
        ∀ peer endpoint, after.peers.lookup mutation.publicKey = some peer →
          peer.status.selectedEndpoint = some endpoint →
          ∃ refs, after.bind.fec.book.lease endpoint = some (peer.fecPolicy, refs)
  retried : (∀ mutation ∈ request.mutations, mutation.operation = .update →
      i.policyOf mutation.publicKey ≠ start.policyOf mutation.publicKey →
      ∀ peer endpoint, i.peers.lookup mutation.publicKey = some peer →
        peer.status.selectedEndpoint = some endpoint → i.bind.fec.book.refs endpoint = 1) →
    (i.rollbackPeerSet request.transactionID none).1 = []

theorem Stands.undone (stands : Stands start transactionID changes mutations i transaction)
    (orderly : i.ledger.Orderly) {fault : Fault}
    (before : ∀ change ∈ changes, start.policyOf change.publicKey = some change.before)
    (done : i.rollbackPeerSet transactionID fault = ([], after)) {name : String}
    (notAdded : name ∉ addedTexts mutations) : after.policyOf name = start.policyOf name := by
  have wellFormed := orderly.wellFormed _ _ stands.found
  have restored : ∀ {changed : PeerTransaction} {later : Instance},
      i.rollbackPeerFECChanges transaction = ([], changed, later) →
      later.policyOf name = start.policyOf name := by
    intro changed later reverted
    obtain ⟨_, _, undone⟩ := rollbackPeerFECChanges_undone wellFormed stands.tracks reverted
    rw [stands.sameChanges] at undone
    by_cases affected : name ∈ changes.map publicKey
    · obtain ⟨change, listed, rfl⟩ := mem_map.mp affected
      rw [undone.restored change listed, before change listed]
    · exact (undone.spares name affected).trans (stands.others name affected notAdded)
  have settled : ∀ (later : Instance) (last : PeerTransaction),
      ((later.setTransaction transactionID last).deactivate transactionID).policyOf name =
        later.policyOf name := by
    intro later last
    unfold deactivate
    split <;> rfl
  cases rollbackPeerSet_rollsBack done with
  | already found state =>
    have lookup := stands.found
    rw [found] at lookup
    cases lookup
    rcases stands.isOpen with other | other <;> rw [state] at other <;> cases other
  | withdrawn found state reverted accepted =>
    obtain ⟨-, rfl⟩ := stands.unique orderly found (.inl state)
    rw [settled]
    refine (policyOf_congr ?_).trans (restored reverted)
    rw [(releasePreparedAdditions_rekeys _ _).frame.peers]
  | undone found state reverted accepted =>
    obtain ⟨-, rfl⟩ := stands.unique orderly found (.inr state)
    have back := restored reverted
    rw [settled]
    refine (policyOf_congr (lookup_dropPeers_of_ne ?_)).trans back
    rw [stands.sameMutations]
    rintro mutation listed isAdd rfl
    exact notAdded (mem_map.mpr ⟨mutation, mem_filter.mpr ⟨listed, decide_eq_true isAdd⟩, rfl⟩)

theorem rollbackPeerSet_of_clean (valid : validTransactionID transactionID = true)
    (found : i.peerTransactions.lookup transactionID = some transaction) (isOpen : transaction.Open)
    (wellFormed : transaction.WellFormed) (clean : (i.rollbackPeerFECChanges transaction).1 = []) :
    (i.rollbackPeerSet transactionID none).1 = [] := by
  have lookup : i.lookupPeerTransaction transactionID = .ok transaction := by
    simp [lookupPeerTransaction, valid, found]
  cases pass : i.rollbackPeerFECChanges transaction with
  | mk errs rest =>
    obtain ⟨restored, later⟩ := rest
    rw [pass] at clean
    subst clean
    obtain ⟨_, _, rfl⟩ := rollbackPeerFECChanges_applies pass
    rcases isOpen with state | state
    · have ready := wellFormed.ready state
      simp [rollbackPeerSet, lookup, state, pass, Device.rollback, ready]
    · have committed := wellFormed.committed state
      simp [rollbackPeerSet, lookup, state, pass, Device.rollback, committed]

/-- In every run from the preparation of a transaction on in which it stays open
and is rolled back only when all of its changes can be undone, or none. -/
theorem rollback_restores_policies {settings : TransportSettings} {config : Bind.Config}
    {configured : List ConfiguredPeer} {request : PeerSetRequest} {fault : Fault}
    {prepared : Instance}
    (begun : Reaches (fun _ _ => True) (newInstance settings config configured) start)
    (fresh : start.peerTransactions.lookup request.transactionID = none)
    (opened : start.preparePeerSet request fault = ([], prepared))
    (reached : Reaches (WhilePending request.transactionID) prepared i)
    (pending : i.Pending request.transactionID) : RestoresPolicies start request i := by
  have startOrderly := orderly_of_reaches (orderly_newInstance _ _ _) begun
  obtain ⟨valid, changes, transaction, stands, planned⟩ := stands_of_prepare fresh opened
  have step : start.step (.preparePeerSet request fault) = prepared := by
    rw [Instance.step, answer, opened]
  obtain ⟨orderly, accounted, still⟩ := stands_of_reaches
    (step ▸ orderly_step startOrderly (.preparePeerSet request fault))
    (step ▸ accounted_step (accounted_of_reaches begun) startOrderly
      (.preparePeerSet request fault)) stands reached
  obtain ⟨transaction, stands⟩ := still pending
  have wellFormed := orderly.wellFormed _ _ stands.found
  refine ⟨?_, ?_⟩
  · intro fault after done mutation listed isUpdate
    have notAdded := not_added_of_update wellFormed (by rw [stands.sameMutations]; exact listed)
      isUpdate
    rw [stands.sameMutations] at notAdded
    refine ⟨stands.undone orderly (fun change listed => (planned change listed).2.1) done
      notAdded, ?_⟩
    intro peer endpoint found selected
    have later := accounted_step accounted orderly (.rollbackPeerSet request.transactionID fault)
    rw [Instance.step, answer, done] at later
    exact ⟨_, later.lease_of_selected found selected⟩
  · intro sole
    refine rollbackPeerSet_of_clean valid stands.found stands.isOpen wellFormed ?_
    refine rollbackPeerFECChanges_of_ready accounted wellFormed fun isApplied change listed => ?_
    have now := stands.tracks.applied isApplied change listed
    rw [stands.sameChanges] at listed
    obtain ⟨differ, then_, mutation, mutated, isUpdate, text⟩ := planned change listed
    obtain ⟨peer, found, policy⟩ := Option.map_eq_some_iff.mp now
    refine ⟨peer, found, policy, ?_⟩
    intro endpoint selected
    refine sole mutation mutated isUpdate ?_ peer endpoint (by rw [text]; exact found) selected
    rw [text, now, then_]
    exact fun same => differ (Option.some.inj same).symm

/-- Both peers are at an endpoint of their own. -/
def beforePolicies : Instance :=
  [CoreCall.setPeerEndpoint firstPeer (some (sampleEndpoint 1)) 1 none,
    .setPeerEndpoint secondPeer (some (sampleEndpoint 2)) 1 none].foldl step pairCore

/-- Both are to change their policy. -/
def policyPlan : PeerSetRequest :=
  ⟨"policies", [{ operation := .update, publicKey := firstPeer, fecPolicy := "latency" },
    { operation := .update, publicKey := secondPeer, fecPolicy := "latency" }], 1⟩

def policiesPrepared : Instance := (beforePolicies.preparePeerSet policyPlan none).2

theorem policies_prepared :
    beforePolicies.preparePeerSet policyPlan none = ([], policiesPrepared) := by
  refine Prod.ext ?_ rfl
  decide +kernel

/-- The first peer is at its endpoint with two generations while the policies are
rolled back, and then settles. -/
def halfRolledBack : List CoreCall := [.commitPeerSet "policies" none,
  .setPeerEndpoint firstPeer (some (sampleEndpoint 1)) 2 none, .rollbackPeerSet "policies" none,
  .finalizePeerEndpoint firstPeer 2]

theorem sole_of_all (all : ((i.peers.lookup publicKey).all fun peer =>
      peer.status.selectedEndpoint.all fun endpoint =>
        i.bind.fec.book.refs endpoint == 1) = true) :
    ∀ peer endpoint, i.peers.lookup publicKey = some peer →
      peer.status.selectedEndpoint = some endpoint → i.bind.fec.book.refs endpoint = 1 := by
  intro peer endpoint found selected
  simpa [found, selected] using all

/-- Both endpoints have one holder again, and still the rollback fails. -/
theorem rollback_stays_stuck : ∃ start prepared i, Reaches (fun _ _ => True) pairCore start ∧
    start.peerTransactions.lookup policyPlan.transactionID = none ∧
    start.preparePeerSet policyPlan none = ([], prepared) ∧
    Reaches (fun j _ => j.Pending policyPlan.transactionID) prepared i ∧
    i.Pending policyPlan.transactionID ∧
    (i.rollbackPeerSet policyPlan.transactionID none).1 =
      [.policyChangedDuringRollback secondPeer] ∧
    ¬RestoresPolicies start policyPlan i := by
  have stuck : ((halfRolledBack.foldl step policiesPrepared).rollbackPeerSet
      policyPlan.transactionID none).1 = [.policyChangedDuringRollback secondPeer] := by
    decide +kernel
  refine ⟨beforePolicies, policiesPrepared, halfRolledBack.foldl step policiesPrepared,
    Follows.reaches (by decide +kernel) .refl, ?_, policies_prepared,
    Follows.reaches (by decide +kernel) .refl, by decide +kernel, stuck, ?_⟩
  · exact Option.isNone_iff_eq_none.mp (by decide +kernel)
  · intro restores
    have ends := restores.retried ?_
    · rw [stuck] at ends
      cases ends
    intro mutation listed _ _
    simp only [policyPlan, mem_cons, not_mem_nil, or_false] at listed
    rcases listed with rfl | rfl
    · exact sole_of_all (by decide +kernel)
    · exact sole_of_all (by decide +kernel)

/-- Neither policy can be restored at first, and then both. -/
def retriedRollback : List CoreCall := [.commitPeerSet "policies" none,
  .setPeerEndpoint firstPeer (some (sampleEndpoint 1)) 2 none,
  .setPeerEndpoint secondPeer (some (sampleEndpoint 2)) 2 none, .rollbackPeerSet "policies" none,
  .finalizePeerEndpoint firstPeer 2, .finalizePeerEndpoint secondPeer 2]

theorem retried_rollback_restores :
    (retriedRollback.foldl step policiesPrepared).policyOf firstPeer = some .latency ∧
      RestoresPolicies beforePolicies policyPlan (retriedRollback.foldl step policiesPrepared) := by
  refine ⟨by decide +kernel, ?_⟩
  refine rollback_restores_policies (Follows.reaches (by decide +kernel) .refl)
    (Option.isNone_iff_eq_none.mp (by decide +kernel)) policies_prepared
    (Follows.reaches (by decide +kernel) .refl) (by decide +kernel)

end Instance

end WgQuic.Core
