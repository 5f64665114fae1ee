import WgQuic.Reconcile.CanonicalTexts
import WgQuic.Reconcile.Diff

/-!
# The canonical form

What the loops of `FromConfig` over prefixes and peers accept, and what they make
of it.  Sorting depends on the order of what is listed only where keys are equal.
-/

namespace WgQuic.Canonical

open List Net WgQuic.Configuration

/-- IPv4 first, then shorter prefixes, then lower addresses. -/
def prefixRank (owned : NetPrefix) : ℕ ×ₗ ℕ ×ₗ ℕ :=
  toLex (if owned.val.addr.is4 then 0 else 1, toLex (owned.val.bits, owned.val.addr.value))

theorem compare_ne_gt (left right : Nat) : Ord.compare left right ≠ .gt ↔ left ≤ right := by
  rw [Ne, Nat.compare_eq_gt, Nat.not_lt]

theorem compare_addr {left right : Addr} (same : left.is4 = right.is4) :
    left.compare right ≠ .gt ↔ left.value ≤ right.value := by
  cases left with
  | v4 _ =>
    cases right with
    | v4 _ => exact compare_ne_gt _ _
    | v6 _ _ => cases same
  | v6 _ _ =>
    cases right with
    | v4 _ => cases same
    | v6 _ _ => exact compare_ne_gt _ _

theorem prefixLe_follows :
    Ranking.Follows (fun left right => left.val.le right.val) prefixRank := by
  rintro ⟨⟨left, leftBits⟩, -⟩ ⟨⟨right, rightBits⟩, -⟩
  simp only [Prefix.le, prefixRank, Prefix.compare, decide_eq_true_eq, Prod.Lex.toLex_le_toLex]
  by_cases family : left.is4 = right.is4
  · rw [if_neg (not_not_intro family), family]
    by_cases length : leftBits = rightBits
    · rw [if_neg (not_not_intro length), compare_addr family]
      simp [length]
    · rw [if_pos length, compare_ne_gt]
      omega
  · cases fourth : left.is4 <;> cases other : right.is4 <;> simp_all

theorem prefixRank_injective : Function.Injective prefixRank := by
  rintro ⟨⟨left, leftBits⟩, leftZone⟩ ⟨⟨right, rightBits⟩, rightZone⟩ same
  simp only [prefixRank, EmbeddingLike.apply_eq_iff_eq, Prod.mk.injEq] at same
  obtain ⟨family, rfl, value⟩ := same
  cases left with
  | v4 _ =>
    cases right with
    | v4 _ =>
      cases BitVec.eq_of_toNat_eq value
      rfl
    | v6 _ _ => cases family
  | v6 _ _ =>
    cases right with
    | v4 _ => cases family
    | v6 _ _ =>
      cases leftZone
      cases rightZone
      cases BitVec.eq_of_toNat_eq value
      rfl

theorem sortPrefixes_perm (prefixes : List NetPrefix) : (sortPrefixes prefixes).Perm prefixes :=
  mergeSort_perm _ _

theorem sortPrefixes_eq {left right : List NetPrefix} (perm : left.Perm right) :
    sortPrefixes left = sortPrefixes right :=
  prefixLe_follows.eq_of_perm perm fun _ _ _ _ same => prefixRank_injective same

theorem sortPrefixes_sortPrefixes (prefixes : List NetPrefix) :
    sortPrefixes (sortPrefixes prefixes) = sortPrefixes prefixes :=
  prefixLe_follows.mergeSort_mergeSort prefixes

theorem peerLe_follows : Ranking.Follows peerLe fun peer => keyBytes peer.publicKey :=
  fun _ _ => decide_eq_true_iff

section Loops

variable {letters : Strings.LowerCase} {active : List Peer} {owned : NetPrefix}
  {owners : List (NetPrefix × Text)} {number : Nat}

theorem lookup_eq_none : owners.lookup owned = none ↔ owned ∉ owners.map Prod.fst := by
  rw [lookup_eq_none_iff, mem_map]
  constructor
  · rintro absent ⟨entry, member, rfl⟩
    exact absurd (absent entry member) (by simp)
  · intro absent entry member
    exact bne_iff_ne.mpr fun same => absent ⟨entry, member, same.symm⟩

theorem canonicalPrefixes_cons {peer : Nat} {seen rest found : List NetPrefix} :
    canonicalPrefixes peer owners number seen (owned :: rest) = .ok found ↔
      owned.val.isValid = true ∧ owned.masked ∉ seen ∧ owned.masked ∉ owners.map Prod.fst ∧
        ∃ others, canonicalPrefixes peer owners (number + 1) (owned.masked :: seen) rest =
          .ok others ∧ found = owned.masked :: others := by
  rw [canonicalPrefixes, ← lookup_eq_none]
  cases valid : owned.val.isValid with
  | false => simp
  | true =>
    by_cases earlier : owned.masked ∈ seen
    · simp [earlier]
    · cases owner : owners.lookup owned.masked with
      | some other => simp [earlier]
      | none =>
        simp only [earlier, Bool.true_eq_false, if_false, Fallible.bind_eq_ok,
          Fallible.pure_eq_ok, not_false_eq_true, true_and, eq_comm (a := found)]

theorem canonicalPrefixes_eq_ok {peer : Nat} {seen prefixes found : List NetPrefix} :
    canonicalPrefixes peer owners number seen prefixes = .ok found ↔
      found = prefixes.map NetPrefix.masked ∧ (∀ owned ∈ prefixes, owned.val.isValid = true) ∧
        found.Nodup ∧ (∀ owned ∈ found, owned ∉ seen) ∧
          ∀ owned ∈ found, owned ∉ owners.map Prod.fst := by
  induction prefixes generalizing number seen found with
  | nil =>
    constructor
    · rintro ⟨⟩
      simp
    · rintro ⟨rfl, -⟩
      rfl
  | cons owned rest ih =>
    rw [canonicalPrefixes_cons]
    constructor
    · rintro ⟨valid, fresh, free, others, later, rfl⟩
      obtain ⟨rfl, sound, nodup, unseen, unowned⟩ := ih.mp later
      refine ⟨rfl, forall_mem_cons.mpr ⟨valid, sound⟩, nodup_cons.mpr ⟨?_, nodup⟩,
        forall_mem_cons.mpr ⟨fresh, ?_⟩, forall_mem_cons.mpr ⟨free, unowned⟩⟩
      · exact fun twice => unseen _ twice mem_cons_self
      · exact fun other member known => unseen other member (mem_cons_of_mem _ known)
    · rintro ⟨rfl, sound, nodup, unseen, unowned⟩
      obtain ⟨valid, sound⟩ := forall_mem_cons.mp sound
      obtain ⟨once, nodup⟩ := nodup_cons.mp nodup
      obtain ⟨fresh, unseen⟩ := forall_mem_cons.mp unseen
      obtain ⟨free, unowned⟩ := forall_mem_cons.mp unowned
      refine ⟨valid, fresh, free, _, ih.mpr ⟨rfl, sound, nodup, ?_, unowned⟩, rfl⟩
      intro other member known
      rcases mem_cons.mp known with rfl | known
      · exact once member
      · exact unseen other member known

/-- What the loop makes of one peer. -/
structure Canonicalizes (letters : Strings.LowerCase) (active : List Peer)
    (peer result : Peer) : Prop where
  publicKey : canonicalKey peer.publicKey = .ok result.publicKey
  presharedKey :
    canonicalPresharedKey active result.publicKey peer.presharedKey = .ok result.presharedKey
  endpoint : canonicalPeerEndpoint letters peer.endpoint = .ok result.endpoint
  persistentKeepalive : result.persistentKeepalive = peer.persistentKeepalive
  fecPolicy : result.fecPolicy = orDefault peer.fecPolicy defaultFECPolicy
  known : result.fecPolicy ∈ fecPolicies
  valid : ∀ owned ∈ peer.allowedIPs, owned.val.isValid = true
  allowedIPs : result.allowedIPs = sortPrefixes (peer.allowedIPs.map NetPrefix.masked)

theorem Canonicalizes.mem_allowedIPs {peer result : Peer}
    (made : Canonicalizes letters active peer result) :
    owned ∈ result.allowedIPs ↔ owned ∈ peer.allowedIPs.map NetPrefix.masked := by
  rw [made.allowedIPs]
  exact (sortPrefixes_perm _).mem_iff

theorem fst_owners (owners : List (NetPrefix × Text)) (prefixes : List NetPrefix)
    (publicKey : Text) :
    (owners ++ prefixes.map fun owned => (owned, publicKey)).map Prod.fst =
      owners.map Prod.fst ++ prefixes := by
  rw [map_append, map_map]
  exact congrArg _ (map_id prefixes)

theorem canonicalPeers_cons {keys : List Text} {peer : Peer} {rest found : List Peer} :
    canonicalPeers letters active number keys owners (peer :: rest) = .ok found ↔
      ∃ result others, Canonicalizes letters active peer result ∧ result.publicKey ∉ keys ∧
        result.allowedIPs.Nodup ∧ (∀ owned ∈ result.allowedIPs, owned ∉ owners.map Prod.fst) ∧
          canonicalPeers letters active (number + 1) (result.publicKey :: keys)
              (owners ++ (peer.allowedIPs.map NetPrefix.masked).map
                fun owned => (owned, result.publicKey)) rest = .ok others ∧
            found = result :: others := by
  rw [canonicalPeers]
  simp only [Fallible.bind_eq_ok, Fallible.mapError_eq_ok, Fallible.check_eq_ok,
    Fallible.pure_eq_ok, not_not]
  constructor
  · rintro ⟨publicKey, key, once, presharedKey, shared, endpoint, written, known, allowedIPs,
      prefixes, others, later, rfl⟩
    obtain ⟨rfl, valid, nodup, -, unowned⟩ := canonicalPrefixes_eq_ok.mp prefixes
    refine ⟨_, others, ?_, ?_, ?_, ?_, ?_, rfl⟩
    · exact ⟨key, shared, written, rfl, rfl, known, valid, rfl⟩
    · exact once
    · exact (sortPrefixes_perm _).nodup_iff.mpr nodup
    · exact fun owned member => unowned owned ((sortPrefixes_perm _).mem_iff.mp member)
    · exact later
  · rintro ⟨result, others, made, once, nodup, unowned, later, rfl⟩
    have perm : result.allowedIPs.Perm (peer.allowedIPs.map NetPrefix.masked) := by
      rw [made.allowedIPs]
      exact sortPrefixes_perm _
    have known := made.known
    rw [made.fecPolicy] at known
    refine ⟨result.publicKey, made.publicKey, once, result.presharedKey, made.presharedKey,
      result.endpoint, made.endpoint, known, _, canonicalPrefixes_eq_ok.mpr ⟨rfl, made.valid,
        perm.nodup_iff.mp nodup, by simp,
        fun owned member => unowned owned (perm.mem_iff.mpr member)⟩, others, later, ?_⟩
    rw [← made.allowedIPs, ← made.fecPolicy, ← made.persistentKeepalive]

theorem canonicalPeers_eq_ok {keys : List Text} {peers found : List Peer} :
    canonicalPeers letters active number keys owners peers = .ok found ↔
      List.Forall₂ (Canonicalizes letters active) peers found ∧
        (found.map Peer.publicKey).Nodup ∧ (∀ peer ∈ found, peer.publicKey ∉ keys) ∧
          (found.flatMap Peer.allowedIPs).Nodup ∧
            ∀ owned ∈ found.flatMap Peer.allowedIPs, owned ∉ owners.map Prod.fst := by
  induction peers generalizing number keys owners found with
  | nil =>
    constructor
    · rintro ⟨⟩
      simp
    · rintro ⟨⟨⟩, -⟩
      rfl
  | cons peer rest ih =>
    rw [canonicalPeers_cons]
    constructor
    · rintro ⟨result, others, made, once, nodup, unowned, later, rfl⟩
      obtain ⟨related, keysNodup, fresh, ownedNodup, free⟩ := ih.mp later
      refine ⟨.cons made related, nodup_cons.mpr ⟨?_, keysNodup⟩,
        forall_mem_cons.mpr ⟨once, ?_⟩, nodup_append.mpr ⟨nodup, ownedNodup, ?_⟩, ?_⟩
      · intro twice
        obtain ⟨other, member, same⟩ := mem_map.mp twice
        exact fresh other member (same ▸ mem_cons_self)
      · exact fun other member known => fresh other member (mem_cons_of_mem _ known)
      · rintro owned first other second rfl
        refine free owned second ?_
        rw [fst_owners]
        exact mem_append_right _ (made.mem_allowedIPs.mp first)
      · intro owned member known
        rcases mem_append.mp member with first | second
        · exact unowned owned first known
        · refine free owned second ?_
          rw [fst_owners]
          exact mem_append_left _ known
    · rintro ⟨related, keysNodup, fresh, ownedNodup, free⟩
      obtain ⟨result, others, made, tail, rfl⟩ := forall₂_cons_left_iff.mp related
      obtain ⟨firstKey, keysNodup⟩ := nodup_cons.mp keysNodup
      obtain ⟨once, fresh⟩ := forall_mem_cons.mp fresh
      obtain ⟨nodup, ownedNodup, apart⟩ := nodup_append.mp ownedNodup
      refine ⟨result, others, made, once, nodup, ?_, ih.mpr ⟨tail, keysNodup, ?_, ownedNodup, ?_⟩,
        rfl⟩
      · exact fun owned member => free owned (mem_append_left _ member)
      · intro other member known
        rcases mem_cons.mp known with same | known
        · exact firstKey (mem_map.mpr ⟨other, member, same⟩)
        · exact fresh other member known
      · intro owned member known
        rw [fst_owners] at known
        rcases mem_append.mp known with earlier | first
        · exact free owned (mem_append_right _ member) earlier
        · exact apart owned (made.mem_allowedIPs.mpr first) owned member rfl

end Loops

end WgQuic.Canonical
