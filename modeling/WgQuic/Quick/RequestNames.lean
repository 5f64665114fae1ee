import WgQuic.Platform.RouteState
import WgQuic.Quick.Executor

/-!
# Names of requests

The executor puts the epoch before the name of a request.  Both parts have only
letters, digits and a few marks, but the core counts the bytes of the whole.
-/

namespace WgQuic.Quick

open WgQuic.Core.Instance (validTransactionID)
open Platform Reconcile
open Reconcile.Coordinator (requestIDCharacter validateRequestID)

/-- The epoch that `NewCoordinator` makes of sixteen random bytes. -/
def newEpoch (value : Vector UInt8 16) : String :=
  String.ofList (Numeral.encodePairs value.toList)

/-- A character that the core takes. -/
def IsSafe (symbol : Char) : Prop :=
  symbol ≠ '\r' ∧ symbol ≠ '\n' ∧ symbol.toNat ≠ 0

theorem safe_of_request {symbol : Char} (accepted : requestIDCharacter symbol = true) :
    IsSafe symbol := by
  refine ⟨?_, ?_, ?_⟩
  · rintro rfl
    exact absurd accepted (by decide)
  · rintro rfl
    exact absurd accepted (by decide)
  · intro zero
    obtain rfl : symbol = Char.ofNat 0 := Char.toNat_inj.mp zero
    exact absurd accepted (by decide)

/-- A digit is written in one byte, and is safe. -/
theorem digitChar_plain {value : Nat} (small : value < 16) :
    value.digitChar.utf8Size = 1 ∧ IsSafe value.digitChar := by
  unfold IsSafe
  rcases value with _ | _ | _ | _ | _ | _ | _ | _ | _ | _ | _ | _ | _ | _ | _ | _ | value
  all_goals first | decide | omega

theorem encodePairs_plain {bytes : List UInt8} {symbol : Char}
    (member : symbol ∈ Numeral.encodePairs bytes) : symbol.utf8Size = 1 ∧ IsSafe symbol := by
  obtain ⟨byte, _, digit⟩ := List.mem_flatMap.mp member
  have small := byte.toNat_lt
  rcases List.mem_pair.mp digit with rfl | rfl
  · exact digitChar_plain (by omega)
  · exact digitChar_plain (by omega)

theorem utf8ByteSize_ofList {text : List Char} (narrow : ∀ symbol ∈ text, symbol.utf8Size = 1) :
    (String.ofList text).utf8ByteSize = text.length := by
  induction text with
  | nil => rfl
  | cons symbol rest ih =>
    obtain ⟨here, later⟩ := List.forall_mem_cons.mp narrow
    rw [String.ofList_cons, String.utf8ByteSize_append, String.utf8ByteSize_singleton, here,
      ih later, List.length_cons, Nat.add_comm]

theorem newEpoch_size (value : Vector UInt8 16) : (newEpoch value).utf8ByteSize = 32 := by
  rw [newEpoch, utf8ByteSize_ofList fun _ member => (encodePairs_plain member).1,
    Numeral.length_encodePairs]
  simp

/-- The journal only wants a name. -/
theorem journal_accepts {journal : PeerRouteJournal} {name : List Char} (named : name ≠ [])
    (valid : validatePeerRouteJournal journal = none)
    (running : journal.phase ≠ peerRouteJournalActive) :
    validatePeerRouteJournal { journal with transactionID := name } = none := by
  unfold validatePeerRouteJournal at valid ⊢
  simp only [running, named, ne_eq, not_false_eq_true, true_and, false_and, if_false] at valid ⊢
  split at valid
  · cases valid
  next schema =>
  split at valid
  · cases valid
  next tunnel =>
  split at valid
  · cases valid
  next identity =>
  split at valid
  · cases valid
  next phase =>
  rw [if_neg schema, if_neg tunnel, if_neg identity, if_neg phase]
  split at valid
  · cases valid
  · exact valid

/-- The name of an accepted request is taken by the core exactly if it is not too long. -/
theorem request_executable_iff (value : Vector UInt8 16) (transaction : Transaction)
    (generated : transaction.epoch = newEpoch value)
    (accepted : validateRequestID transaction.requestID = none) :
    (validTransactionID (transactionIDOf transaction) = true ∧
      ∀ journal, validatePeerRouteJournal journal = none → journal.phase ≠ peerRouteJournalActive →
        validatePeerRouteJournal { journal with
          transactionID := (transactionIDOf transaction).toList } = none) ↔
      transaction.requestID.utf8ByteSize ≤ 95 := by
  have size : (transactionIDOf transaction).utf8ByteSize =
      33 + transaction.requestID.utf8ByteSize := by
    rw [transactionIDOf, generated, String.utf8ByteSize_append, String.utf8ByteSize_append,
      newEpoch_size]
    rfl
  have plain : ∀ symbol ∈ (transactionIDOf transaction).toList, IsSafe symbol := by
    intro symbol member
    rw [transactionIDOf, generated, newEpoch, String.toList_append, String.toList_append,
      String.toList_ofList] at member
    rcases List.mem_append.mp member with member | member
    · rcases List.mem_append.mp member with member | member
      · exact (encodePairs_plain member).2
      · obtain rfl : symbol = ':' := by simpa using member
        exact ⟨by decide, by decide, by decide⟩
    · unfold validateRequestID at accepted
      split at accepted
      · cases accepted
      split at accepted
      · next every => exact safe_of_request (List.all_eq_true.mp every symbol member)
      · cases accepted
  have named : transactionIDOf transaction ≠ "" := by
    intro empty
    rw [empty, String.utf8ByteSize_empty] at size
    omega
  constructor
  · rintro ⟨valid, _⟩
    have short := (of_decide_eq_true valid).2.1
    omega
  · intro short
    refine ⟨decide_eq_true ⟨named, by omega, ?_⟩, fun journal valid running => ?_⟩
    · exact List.all_eq_true.mpr fun symbol member => decide_eq_true (plain symbol member)
    · exact journal_accepts (by simpa using named) valid running

/-- The request of a name, in the epoch of sixteen zeros. -/
def namedRequest (requestID : String) : Transaction :=
  { epoch := newEpoch (Vector.replicate 16 0), requestID, baseGeneration := 1, nextGeneration := 2
    current := {}
    desired := {}
    diff := {} }

/-- A request of 95 letters is the longest that the core takes. -/
theorem short_request_executable :
    validateRequestID (String.ofList (List.replicate 95 'a')) = none ∧
      validTransactionID (transactionIDOf
        (namedRequest (String.ofList (List.replicate 95 'a')))) = true :=
  ⟨by decide +kernel, ((request_executable_iff (Vector.replicate 16 0)
    (namedRequest (String.ofList (List.replicate 95 'a'))) rfl (by decide +kernel)).mpr
      (by decide +kernel)).1⟩

/-- A request of 96 letters is accepted, and refused by the core. -/
theorem long_request_refused : validateRequestID (String.ofList (List.replicate 96 'a')) = none ∧
      validTransactionID (transactionIDOf
        (namedRequest (String.ofList (List.replicate 96 'a')))) = false := by
  decide +kernel

end WgQuic.Quick
