import Mathlib.Data.List.Count
import Mathlib.Data.List.Nodup
import Mathlib.Data.List.Perm.Basic

/-!
# Counted leases

A book keeps, for every resource in use, a tag and a number of references.  It
hands out a release function for each reference, and each of them works once.
The book is balanced when the functions that somebody still holds are those
that it counts.
-/

theorem List.getElem?_concat_ne {α : Type} {items : List α} {last : α} {i : Nat}
    (different : i ≠ items.length) : (items ++ [last])[i]? = items[i]? := by
  rw [List.getElem?_append]
  split
  · rfl
  · rw [List.getElem?_eq_none (by simp; omega), List.getElem?_eq_none (by omega)]

/-- A release function that was handed out. -/
structure Handle (R T : Type) where
  resource : R
  tag : T
  released : Bool := false
deriving DecidableEq, Repr

structure LeaseBook (R T : Type) where
  lease : R → Option (T × Nat)
  handle : Nat → Option (Handle R T)

namespace LeaseBook

variable {R T : Type} {book after : LeaseBook R T}
  {resource : R} {tag : T} {index fresh : Nat} {held other : List Nat}

def refs (book : LeaseBook R T) (resource : R) : Nat :=
  (book.lease resource).elim 0 Prod.snd

theorem refs_congr (same : after.lease resource = book.lease resource) :
    after.refs resource = book.refs resource := by
  rw [refs, refs, same]

theorem refs_of_lease {refs : Nat} (found : book.lease resource = some (tag, refs)) :
    book.refs resource = refs := by
  rw [LeaseBook.refs, found]
  rfl

/-- A function for a resource is handed out. -/
structure Hands (book : LeaseBook R T) (resource : R) (tag : T) (refs fresh : Nat)
    (after : LeaseBook R T) : Prop where
  counted : after.lease resource = some (tag, refs)
  otherLeases : ∀ other, other ≠ resource → after.lease other = book.lease other
  unused : book.handle fresh = none
  handed : after.handle fresh = some { resource, tag }
  otherHandles : ∀ other, other ≠ fresh → after.handle other = book.handle other

structure Acquires (book : LeaseBook R T) (resource : R) (tag : T) (fresh : Nat)
    (after : LeaseBook R T) : Prop
    extends Hands book resource tag (book.refs resource + 1) fresh after where
  free : book.refs resource = 0 ∨ ∃ refs, book.lease resource = some (tag, refs)

structure Releases (book : LeaseBook R T) (index : Nat) (after : LeaseBook R T) : Prop where
  counted : ∀ handle refs, book.handle index = some handle →
    book.lease handle.resource = some (handle.tag, refs) →
    after.lease handle.resource = if refs - 1 > 0 then some (handle.tag, refs - 1) else none
  otherLeases : ∀ handle other, book.handle index = some handle →
    other ≠ handle.resource → after.lease other = book.lease other
  otherHandles : ∀ other, other ≠ index → after.handle other = book.handle other

/-- The only reference to a resource gets another tag. -/
structure Replaces (book : LeaseBook R T) (resource : R) (old new : T) (fresh : Nat)
    (after : LeaseBook R T) : Prop extends Hands book resource new 1 fresh after where
  sole : book.lease resource = some (old, 1)

def place (book : LeaseBook R T) (index : Nat) : Option (R × T) :=
  (book.handle index).map fun handle => (handle.resource, handle.tag)

variable {target : R × T}

theorem Hands.place {refs : Nat} (hands : book.Hands resource tag refs fresh after) {index : Nat}
    (placed : book.place index = some target) : after.place index = some target := by
  have different : index ≠ fresh := by
    rintro rfl
    simp [LeaseBook.place, hands.unused] at placed
  rw [LeaseBook.place, hands.otherHandles index different]
  exact placed

/-- A function that is called gives back one of the references. -/
theorem Releases.of_handle {handle : Handle R T} {refs : Nat}
    (found : book.handle index = some handle)
    (leased : book.lease handle.resource = some (handle.tag, refs))
    (counted : after.lease handle.resource =
      if refs - 1 > 0 then some (handle.tag, refs - 1) else none)
    (otherLeases : ∀ other, other ≠ handle.resource → after.lease other = book.lease other)
    (otherHandles : ∀ other, other ≠ index → after.handle other = book.handle other) :
    book.Releases index after := by
  refine ⟨fun same count sameFound sameLeased => ?_, fun same other sameFound => ?_, otherHandles⟩
  · cases found.symm.trans sameFound
    cases leased.symm.trans sameLeased
    exact counted
  · cases found.symm.trans sameFound
    exact otherLeases other

variable [DecidableEq R]

/-- A function releases the resource. -/
def isFor (book : LeaseBook R T) (resource : R) (index : Nat) : Bool :=
  (book.handle index).any fun handle => decide (handle.resource = resource)

/-- The functions of a holder are open, they carry the tag of their resource, and
nobody else has one. -/
structure Balanced (book : LeaseBook R T) (held : List Nat) : Prop where
  nodup : held.Nodup
  agrees : ∀ index ∈ held, ∃ handle, book.handle index = some handle ∧ handle.released = false ∧
    ∃ refs, book.lease handle.resource = some (handle.tag, refs)
  counts : ∀ resource, book.refs resource = held.countP (book.isFor resource)

theorem countP_congr (same : ∀ index ∈ held, after.handle index = book.handle index) :
    held.countP (after.isFor resource) = held.countP (book.isFor resource) :=
  List.countP_congr fun index listed => by rw [isFor, isFor, same index listed]

theorem isFor_of_handle {handle : Handle R T} (found : book.handle index = some handle) :
    book.isFor resource index = decide (handle.resource = resource) := by
  rw [isFor, found]
  rfl

theorem isFor_iff : book.isFor resource index = true ↔
    ∃ handle, book.handle index = some handle ∧ handle.resource = resource := by
  rw [isFor, Option.any_eq_true]
  simp

namespace Balanced

section

variable (balanced : book.Balanced held)

include balanced

theorem perm (perm : held.Perm other) : book.Balanced other where
  nodup := perm.nodup_iff.mp balanced.nodup
  agrees index listed := balanced.agrees index (perm.mem_iff.mpr listed)
  counts resource := by rw [balanced.counts, perm.countP_eq]

theorem none_of_refs_zero (zero : book.refs resource = 0)
    (listed : index ∈ held) : book.isFor resource index = false := by
  rw [balanced.counts, List.countP_eq_zero] at zero
  simpa using zero index listed

theorem eq_of_sole (sole : book.refs resource = 1) {left right : Nat} (listedLeft : left ∈ held)
    (listedRight : right ∈ held) (forLeft : book.isFor resource left = true)
    (forRight : book.isFor resource right = true) : left = right := by
  rw [balanced.counts, List.countP_eq_length_filter] at sole
  obtain ⟨only, single⟩ := List.length_eq_one_iff.mp sole
  have inLeft : left ∈ held.filter (book.isFor resource) :=
    List.mem_filter.mpr ⟨listedLeft, forLeft⟩
  have inRight : right ∈ held.filter (book.isFor resource) :=
    List.mem_filter.mpr ⟨listedRight, forRight⟩
  rw [single, List.mem_singleton] at inLeft inRight
  rw [inLeft, inRight]

end

/-- A function is handed out next to those that are held, if they have the same tag when
they are for its resource. -/
theorem of_hands {refs : Nat} (hands : book.Hands resource tag refs fresh after)
    (nodup : held.Nodup)
    (agrees : ∀ index ∈ held, ∃ handle, book.handle index = some handle ∧
      handle.released = false ∧ (∃ refs, book.lease handle.resource = some (handle.tag, refs)) ∧
      (handle.resource = resource → handle.tag = tag))
    (own : refs = held.countP (book.isFor resource) + 1)
    (counts : ∀ other, other ≠ resource → book.refs other = held.countP (book.isFor other)) :
    after.Balanced (fresh :: held) := by
  have new : fresh ∉ held := by
    intro listed
    obtain ⟨handle, found, _⟩ := agrees fresh listed
    cases hands.unused.symm.trans found
  have handles : ∀ index ∈ held, after.handle index = book.handle index :=
    fun index listed => hands.otherHandles index fun same => new (same ▸ listed)
  refine ⟨List.nodup_cons.mpr ⟨new, nodup⟩, ?_, ?_⟩
  · intro index listed
    rcases List.mem_cons.mp listed with rfl | listed
    · exact ⟨_, hands.handed, rfl, _, hands.counted⟩
    obtain ⟨handle, found, unreleased, ⟨refs, lease⟩, tagged⟩ := agrees index listed
    refine ⟨handle, (handles index listed).trans found, unreleased, ?_⟩
    by_cases same : handle.resource = resource
    · exact ⟨_, by rw [same, hands.counted, tagged same]⟩
    · exact ⟨refs, (hands.otherLeases _ same).trans lease⟩
  · intro other
    rw [List.countP_cons, countP_congr handles, isFor_of_handle hands.handed]
    by_cases same : other = resource
    · subst same
      rw [refs_of_lease hands.counted, own]
      simp
    · rw [refs_congr (hands.otherLeases other same), counts other same,
        if_neg (by simpa using Ne.symm same)]
      rfl

theorem acquire (balanced : book.Balanced held)
    (acquires : book.Acquires resource tag fresh after) : after.Balanced (fresh :: held) := by
  refine of_hands acquires.toHands balanced.nodup ?_ ?_ fun other _ => balanced.counts other
  · intro index listed
    obtain ⟨handle, found, unreleased, refs, lease⟩ := balanced.agrees index listed
    refine ⟨handle, found, unreleased, ⟨refs, lease⟩, fun same => ?_⟩
    rcases acquires.free with unreferenced | ⟨_, tagged⟩
    · have notFor := balanced.none_of_refs_zero unreferenced listed
      rw [isFor_of_handle found] at notFor
      exact absurd same (by simpa using notFor)
    · rw [same, tagged] at lease
      cases lease
      rfl
  · rw [balanced.counts]

theorem release (balanced : book.Balanced (index :: held))
    (releases : book.Releases index after) : after.Balanced held := by
  obtain ⟨new, nodup⟩ := List.nodup_cons.mp balanced.nodup
  obtain ⟨handle, found, _, refs, lease⟩ := balanced.agrees index List.mem_cons_self
  have counted := releases.counted handle refs found lease
  have handles : ∀ other ∈ held, after.handle other = book.handle other :=
    fun other listed => releases.otherHandles other fun same => new (same ▸ listed)
  have total : refs = held.countP (book.isFor handle.resource) + 1 := by
    have counts := balanced.counts handle.resource
    rw [refs_of_lease lease, List.countP_cons, isFor_of_handle found] at counts
    simpa using counts
  refine ⟨nodup, ?_, ?_⟩
  · intro other listed
    obtain ⟨otherHandle, otherFound, unreleased, otherRefs, otherLease⟩ :=
      balanced.agrees other (List.mem_cons_of_mem _ listed)
    refine ⟨otherHandle, (handles other listed).trans otherFound, unreleased, ?_⟩
    by_cases same : otherHandle.resource = handle.resource
    · have positive : 0 < held.countP (book.isFor handle.resource) := by
        rw [List.countP_pos_iff]
        exact ⟨other, listed, isFor_iff.mpr ⟨otherHandle, otherFound, same⟩⟩
      rw [same] at otherLease ⊢
      rw [lease] at otherLease
      simp only [Option.some.injEq, Prod.mk.injEq] at otherLease
      rw [counted, if_pos (by omega), otherLease.1]
      exact ⟨_, rfl⟩
    · exact ⟨otherRefs, by rw [releases.otherLeases handle _ found same, otherLease]⟩
  · intro other
    rw [countP_congr handles]
    by_cases same : other = handle.resource
    · subst same
      rw [LeaseBook.refs, counted]
      split
      · simp only [Option.elim_some]
        omega
      · simp only [Option.elim_none]
        omega
    · have counts := balanced.counts other
      rw [List.countP_cons, isFor_of_handle found, if_neg (by simpa using Ne.symm same)] at counts
      rw [refs_congr (releases.otherLeases handle other found same), counts]
      rfl

/-- The function of the replaced lease is dropped, and never called. -/
theorem replace {old new : T} (balanced : book.Balanced (index :: held))
    (holds : book.isFor resource index = true)
    (replaces : book.Replaces resource old new fresh after) : after.Balanced (fresh :: held) := by
  obtain ⟨notHeld, nodup⟩ := List.nodup_cons.mp balanced.nodup
  have others : ∀ other ∈ held, book.isFor resource other = false := by
    intro other listed
    by_contra holdsToo
    have same := balanced.eq_of_sole (refs_of_lease replaces.sole)
      List.mem_cons_self (List.mem_cons_of_mem _ listed) holds (by simpa using holdsToo)
    exact notHeld (same ▸ listed)
  refine of_hands replaces.toHands nodup ?_ ?_ fun other different => ?_
  · intro other listed
    obtain ⟨handle, found, unreleased, leased⟩ :=
      balanced.agrees other (List.mem_cons_of_mem _ listed)
    have notFor := others other listed
    rw [isFor_of_handle found] at notFor
    exact ⟨handle, found, unreleased, leased, fun same => absurd same (by simpa using notFor)⟩
  · rw [List.countP_eq_zero.mpr fun index listed => by simp [others index listed]]
  · obtain ⟨handle, found, isResource⟩ := isFor_iff.mp holds
    rw [balanced.counts, List.countP_cons, isFor_of_handle found, isResource,
      if_neg (by simpa using Ne.symm different)]
    rfl

end Balanced

section Calls

variable {σ : Type} {call : σ → Nat → σ} {b : σ}

omit [DecidableEq R] in
theorem place_foldl (view : σ → LeaseBook R T)
    (calls : ∀ b called, (view (call b called)).place index = (view b).place index)
    {functions : List Nat} :
    (view (functions.foldl call b)).place index = (view b).place index := by
  induction functions generalizing b with
  | nil => rfl
  | cons function rest ih => rw [List.foldl_cons, ih, calls]

/-- What becomes of the book when functions are called one after the other. -/
theorem Balanced.releaseAll (view : σ → LeaseBook R T)
    (calls : ∀ b held index, (view b).Balanced held → index ∈ held →
      (view b).Releases index (view (call b index)))
    {functions : List Nat} (balanced : (view b).Balanced (functions ++ held)) :
    (view (functions.foldl call b)).Balanced held ∧ ∀ index, index ∉ functions →
        (view (functions.foldl call b)).handle index = (view b).handle index := by
  induction functions generalizing b with
  | nil => exact ⟨balanced, fun _ _ => rfl⟩
  | cons function rest ih =>
    have releases := calls b _ function balanced List.mem_cons_self
    obtain ⟨settled, others⟩ := ih (balanced.release releases)
    refine ⟨settled, ?_⟩
    intro index unlisted
    rw [List.foldl_cons, others index fun listed => unlisted (List.mem_cons_of_mem _ listed)]
    exact releases.otherHandles index fun same => unlisted (same ▸ List.mem_cons_self)

end Calls

/-- A function that is held is for the resource where the book puts it. -/
theorem isFor_of_place (placed : book.place index = some target) :
    book.isFor resource index = decide (target.1 = resource) := by
  rw [LeaseBook.place, Option.map_eq_some_iff] at placed
  obtain ⟨handle, found, rfl⟩ := placed
  exact isFor_of_handle found

theorem Balanced.lease_of_place (balanced : book.Balanced held) (listed : index ∈ held)
    (placed : book.place index = some (resource, tag)) :
    book.lease resource = some (tag, book.refs resource) := by
  obtain ⟨handle, found, _, refs, lease⟩ := balanced.agrees index listed
  rw [LeaseBook.place, found] at placed
  cases placed
  rw [refs_of_lease lease, lease]

/-- The references to a resource under one tag. -/
def refsFor [DecidableEq T] (book : LeaseBook R T) (resource : R) (tag : T) : Nat :=
  (book.lease resource).elim 0 fun lease => if lease.1 = tag then lease.2 else 0

theorem Balanced.refsFor [DecidableEq T] (balanced : book.Balanced held) (resource : R) (tag : T) :
    book.refsFor resource tag =
      held.countP fun index => decide (book.place index = some (resource, tag)) := by
  cases leased : book.lease resource with
  | none =>
    rw [LeaseBook.refsFor, leased, eq_comm, Option.elim_none, List.countP_eq_zero]
    intro index listed
    rw [decide_eq_true_iff]
    intro placed
    rw [balanced.lease_of_place listed placed] at leased
    cases leased
  | some lease =>
    obtain ⟨known, refs⟩ := lease
    rw [LeaseBook.refsFor, leased, Option.elim_some]
    split
    · next same =>
      subst same
      rw [← refs_of_lease leased, balanced.counts]
      refine List.countP_congr ?_
      intro index listed
      obtain ⟨handle, found, _, count, lease⟩ := balanced.agrees index listed
      rw [isFor_of_handle found, decide_eq_true_iff, decide_eq_true_iff, LeaseBook.place, found]
      constructor
      · rintro rfl
        rw [leased] at lease
        cases lease
        rfl
      · rintro ⟨⟩
        rfl
    next different =>
    rw [eq_comm, List.countP_eq_zero]
    intro index listed
    rw [decide_eq_true_iff]
    intro placed
    rw [balanced.lease_of_place listed placed] at leased
    cases leased
    exact different rfl

end LeaseBook
