import Mathlib.Algebra.BigOperators.Group.List.Basic
import Mathlib.Algebra.Order.Ring.Int
import Mathlib.Data.List.Perm.Lattice
import WgQuic.Bind.SendBudget

/-!
# Accounting of the send budget

A reserved packet is in the hands of its caller, in the queue or in the hands of the
send loop, until its bytes are given back.
-/

namespace WgQuic.Bind

open List

/-- Reserved but not yet enqueued. -/
def CallerPhase.reserved : CallerPhase → Bool
  | .notify | .offer | .full | .blocked | .release _ => true
  | _ => false

/-- Data packets only: a priority packet reserves nothing. -/
def Caller.held (caller : Caller) : List OutboundPacket :=
  if caller.packet.data && caller.phase.reserved then [caller.packet] else []

/-- Dequeued but not yet released. -/
def LoopPhase.held : LoopPhase → List OutboundPacket
  | .received packet | .raised packet | .release packet => if packet.data then [packet] else []
  | _ => []

def SendSystem.held (s : SendSystem) : List OutboundPacket :=
  s.callers.flatMap Caller.held ++ s.shared.send ++ s.loop.held

def totalLength (packets : List OutboundPacket) : Int :=
  (packets.map fun packet => (packet.length : Int)).sum

section TotalLength

variable {packet : OutboundPacket} {packets rest : List OutboundPacket}

theorem totalLength_cons :
    totalLength (packet :: packets) = packet.length + totalLength packets := by
  simp [totalLength]

theorem totalLength_perm (perm : packets.Perm rest) : totalLength packets = totalLength rest :=
  (perm.map _).sum_eq

theorem totalLength_nonneg (packets : List OutboundPacket) : 0 ≤ totalLength packets := by
  induction packets with
  | nil => exact Int.le_refl 0
  | cons packet rest ih =>
    rw [totalLength_cons]
    omega

end TotalLength

/-- Only data packets get past the priority queue. -/
def CallerPhase.dataOnly : CallerPhase → Bool
  | .entry | .offerPriority | .release _ | .done _ => false
  | _ => true

structure SendSystem.Sorted (s : SendSystem) : Prop where
  callers : ∀ caller ∈ s.callers, caller.phase.dataOnly = true → caller.packet.data = true
  priority : ∀ caller ∈ s.callers, caller.phase = .offerPriority → caller.packet.data = false
  send : ∀ packet ∈ s.shared.send, packet.data = true

variable {after s : SendState} {later phase : CallerPhase} {packet : OutboundPacket}

section

variable (moves : CallerMoves s packet phase after later)

include moves

theorem CallerMoves.dataOnly (before : phase.dataOnly = true → packet.data = true)
    (now : later.dataOnly = true) : packet.data = true := by
  cases moves with
  | enter data => exact data
  | giveBack data => exact data
  | enterPriority | enterClosed | expire | leave | queueFirst | expireFull | queue | abandon
  | ignore | post | queuePriority | abandonPriority => cases now
  | load | refuse | fits | reserve | retry | wait | take | pass | overflow | block =>
    exact before rfl

theorem CallerMoves.send :
    after.send = s.send ∨ after.send = s.send ++ [packet] ∧ phase.dataOnly = true := by
  cases moves with
  | queueFirst | queue => exact .inr ⟨rfl, rfl⟩
  | _ => exact .inl rfl

theorem CallerMoves.priority (now : later = .offerPriority) : packet.data = false := by
  cases moves with
  | enterPriority priority => exact priority
  | @reserve waited limit => cases waited <;> cases now
  | _ => cases now

end

theorem SendSystem.Moves.grows {s after : SendSystem} (moves : s.Moves after) :
    s.peak ≤ after.peak ∧ s.largest ≤ after.largest ∧ s.callers.length ≤ after.callers.length := by
  cases moves with
  | arrive length data =>
    refine ⟨Int.le_refl _, ?_, by simp⟩
    cases data with
    | false => exact Nat.le_refl _
    | true => exact le_max_left _ _
  | caller found => exact ⟨Int.le_refl _, Nat.le_refl _, by simp [found]⟩
  | prioritySent | close => exact ⟨Int.le_refl _, Nat.le_refl _, Nat.le_refl _⟩
  | loop => exact ⟨le_max_left _ _, Nat.le_refl _, Nat.le_refl _⟩

/-- A caller is as it was before the step, or has arrived, or has moved. -/
theorem SendSystem.Moves.caller_cases {s after : SendSystem} {caller : Caller}
    (moves : s.Moves after) (member : caller ∈ after.callers) :
    caller ∈ s.callers ∨ (caller.phase = .entry ∧ caller.packet.id = s.callers.length ∧
        (caller.packet.data = true → caller.packet.length ≤ after.largest)) ∨
      ∃ phase, ⟨caller.packet, phase⟩ ∈ s.callers ∧
        CallerMoves s.shared caller.packet phase after.shared caller.phase := by
  cases moves with
  | arrive length data =>
    refine (mem_append.mp member).imp_right fun last => .inl ?_
    rw [mem_singleton.mp last]
    refine ⟨rfl, rfl, ?_⟩
    rintro (rfl : data = true)
    exact le_max_right _ _
  | @caller left right packet phase later shared found moves =>
    simp only [mem_append, mem_cons] at member
    rcases member with inLeft | rfl | inRight
    · exact .inl (by simp [found, inLeft])
    · exact .inr (.inr ⟨phase, by simp [found], moves⟩)
    · exact .inl (by simp [found, inRight])
  | loop | prioritySent | close => exact .inl member

theorem SendSystem.Sorted.moves {s after : SendSystem} (sorted : s.Sorted)
    (moves : s.Moves after) : after.Sorted := by
  refine ⟨?_, ?_, ?_⟩
  · intro caller member now
    rcases moves.caller_cases member with known | ⟨entry, -⟩ | ⟨phase, known, moves⟩
    · exact sorted.callers caller known now
    · rw [entry] at now
      cases now
    · exact moves.dataOnly (sorted.callers _ known) now
  · intro caller member now
    rcases moves.caller_cases member with known | ⟨entry, -⟩ | ⟨phase, known, moves⟩
    · exact sorted.priority caller known now
    · cases entry.symm.trans now
    · exact moves.priority now
  · cases moves with
    | @caller left right packet phase later shared found moves =>
      intro queued member
      rcases moves.send with same | ⟨appended, dataOnly⟩
      · exact sorted.send queued (same ▸ member)
      · rw [appended] at member
        rcases mem_append.mp member with earlier | last
        · exact sorted.send queued earlier
        · rw [mem_singleton.mp last]
          exact sorted.callers ⟨packet, phase⟩ (by simp [found]) dataOnly
    | loop found moves =>
      cases moves with
      | take queued =>
        intro packet member
        exact sorted.send packet (queued ▸ mem_cons_of_mem _ member)
      | _ => exact sorted.send
    | arrive | prioritySent | close => exact sorted.send

/-- What a step does to the reservations. -/
inductive SendSystem.Custody (s after : SendSystem) : Prop where
  | kept (perm : after.held.Perm s.held) (bytes : after.shared.sendBytes = s.shared.sendBytes)
      (released : after.released = s.released)
  | reserved (left right : List Caller) (packet : OutboundPacket) (waited : Bool) (limit : Int)
      (found : s.callers = left ++ ⟨packet, .swap waited limit s.shared.sendBytes⟩ :: right)
      (callers : after.callers = left ++ ⟨packet, if waited then .notify else .offer⟩ :: right)
      (perm : after.held.Perm (packet :: s.held))
      (bytes : after.shared.sendBytes = s.shared.sendBytes + packet.length)
      (released : after.released = s.released)
  | released (packet : OutboundPacket) (perm : s.held.Perm (packet :: after.held))
      (bytes : after.shared.sendBytes = s.shared.sendBytes - packet.length)
      (released : after.released = packet :: s.released)

namespace SendSystem

variable {s after : SendSystem} {left right : List Caller}

/-- The packet of one caller comes first. -/
theorem held_split {caller : Caller} (found : s.callers = left ++ caller :: right) :
    s.held.Perm (caller.held ++
      ((left ++ right).flatMap Caller.held ++ s.shared.send ++ s.loop.held)) := by
  have callers : (s.callers.flatMap Caller.held).Perm
      (caller.held ++ (left ++ right).flatMap Caller.held) := by
    rw [found, flatMap_append, flatMap_append]
    exact perm_append_comm_assoc _ _ _
  rw [← append_assoc, ← append_assoc]
  exact (callers.append_right _).append_right _

theorem Sorted.custody_caller (sorted : s.Sorted) {packet : OutboundPacket}
    {phase later : CallerPhase} {shared : SendState}
    (found : s.callers = left ++ ⟨packet, phase⟩ :: right)
    (moves : CallerMoves s.shared packet phase shared later) :
    s.Custody { s with
      shared
      callers := left ++ ⟨packet, later⟩ :: right
      released := phase.givesBack packet ++ s.released } := by
  have member : (⟨packet, phase⟩ : Caller) ∈ s.callers := by simp [found]
  have data : phase.dataOnly = true → packet.data = true := sorted.callers _ member
  have before := held_split found
  have now : ∀ released, ({ s with
      shared, callers := left ++ ⟨packet, later⟩ :: right, released } : SendSystem).held.Perm
      ((⟨packet, later⟩ : Caller).held ++
        ((left ++ right).flatMap Caller.held ++ shared.send ++ s.loop.held)) :=
    fun released => held_split (s := { s with
      shared, callers := left ++ ⟨packet, later⟩ :: right, released }) rfl
  have keep : ∀ released, (⟨packet, later⟩ : Caller).held = (⟨packet, phase⟩ : Caller).held →
      shared.send = s.shared.send → ({ s with
        shared, callers := left ++ ⟨packet, later⟩ :: right, released } : SendSystem).held.Perm
        s.held := by
    intro released same queue
    have after := now released
    rw [same, queue] at after
    exact after.trans before.symm
  have queued : phase.dataOnly = true → phase.reserved = true → later.reserved = false →
      shared.send = s.shared.send ++ [packet] → ({ s with
        shared, callers := left ++ ⟨packet, later⟩ :: right } : SendSystem).held.Perm s.held := by
    intro dataOnly reserved left queue
    have after := now s.released
    rw [queue, Caller.held, left, Bool.and_false, if_neg Bool.false_ne_true] at after
    rw [Caller.held, reserved, data dataOnly, Bool.and_self] at before
    refine after.trans (List.Perm.trans ?_ before.symm)
    rw [nil_append, append_assoc, append_assoc, append_assoc]
    exact List.Perm.trans (List.Perm.append_left _ perm_middle) perm_middle
  cases moves with
  | @reserve waited limit =>
    have idle : (⟨packet, .swap waited limit s.shared.sendBytes⟩ : Caller).held = [] := by
      simp [Caller.held, CallerPhase.reserved]
    have isData : packet.data = true := data rfl
    have holds : (⟨packet, if waited then .notify else .offer⟩ : Caller).held = [packet] := by
      cases waited <;> simp [Caller.held, CallerPhase.reserved, isData]
    refine .reserved left right packet waited limit found rfl ?_ rfl rfl
    have after := now s.released
    rw [holds] at after
    rw [idle] at before
    exact after.trans (before.symm.cons packet)
  | queueFirst => exact .kept (queued rfl rfl rfl rfl) rfl rfl
  | queue => exact .kept (queued rfl rfl rfl rfl) rfl rfl
  | @giveBack outcome isData =>
    have holds : (⟨packet, .release outcome⟩ : Caller).held = [packet] := by
      simp [Caller.held, CallerPhase.reserved, isData]
    have gone : (⟨packet, .released outcome⟩ : Caller).held = [] := by
      simp [Caller.held, CallerPhase.reserved]
    have given : (CallerPhase.release outcome).givesBack packet = [packet] := if_pos isData
    rw [given]
    refine .released packet ?_ rfl rfl
    have after := now (packet :: s.released)
    rw [gone] at after
    rw [holds] at before
    exact before.trans (after.symm.cons packet)
  | @ignore outcome priority =>
    have given : (CallerPhase.release outcome).givesBack packet = [] := by
      simp [CallerPhase.givesBack, priority]
    rw [given]
    refine .kept (keep _ ?_ rfl) rfl rfl
    simp [Caller.held, priority]
  | pass | overflow | block | expireFull | abandon => exact .kept (keep _ rfl rfl) rfl rfl
  | enterPriority | enterClosed | enter | load | refuse | fits | retry | wait | expire | take
  | leave | post | queuePriority =>
    refine .kept (keep _ ?_ rfl) rfl rfl
    simp [Caller.held, CallerPhase.reserved]
  | abandonPriority =>
    have priority : packet.data = false := sorted.priority _ member rfl
    refine .kept (keep _ ?_ rfl) rfl rfl
    simp [Caller.held, priority]

theorem Sorted.custody_loop (sorted : s.Sorted) {phase later : LoopPhase} {shared : SendState}
    (found : s.loop = phase) (moves : LoopMoves s.shared phase shared later) :
    s.Custody { s with
      shared
      loop := later
      released := phase.givesBack ++ s.released
      peak := max s.peak shared.limit } := by
  have before : s.held = s.callers.flatMap Caller.held ++ s.shared.send ++ phase.held := by
    rw [held, found]
  cases moves with
  | @take packet rest queued =>
    have data : packet.data = true := sorted.send packet (by simp [queued])
    have taken : (LoopPhase.received packet).held = [packet] := if_pos data
    refine .kept ?_ rfl rfl
    rw [before, queued]
    change (s.callers.flatMap Caller.held ++ rest ++ (LoopPhase.received packet).held).Perm
      (s.callers.flatMap Caller.held ++ packet :: rest ++ [])
    rw [taken, append_nil, append_assoc]
    exact List.Perm.append_left _ perm_append_comm
  | stop free =>
    refine .kept ?_ rfl ?_
    · rw [before]
      rcases free with rfl | rfl <;> exact .rfl
    · rcases free with rfl | rfl <;> rfl
  | @sample packet bandwidth pacing startup limit sampled =>
    refine .kept ?_ rfl rfl
    rw [before]
    split <;> exact .rfl
  | @giveBack packet data =>
    have given : (LoopPhase.release packet).givesBack = [packet] := if_pos data
    have holds : (LoopPhase.release packet).held = [packet] := if_pos data
    rw [given]
    refine .released packet ?_ rfl rfl
    rw [before, holds]
    change (s.callers.flatMap Caller.held ++ s.shared.send ++ [packet]).Perm
      (packet :: (s.callers.flatMap Caller.held ++ s.shared.send ++ []))
    rw [append_nil]
    exact perm_append_comm
  | @ignore packet priority =>
    have given : (LoopPhase.release packet).givesBack = [] := by
      simp [LoopPhase.givesBack, priority]
    rw [given]
    refine .kept (.of_eq ?_) rfl rfl
    rw [before, held]
    simp [LoopPhase.held, priority]
  | skip | announce | post | sent =>
    refine .kept ?_ rfl rfl
    rw [before]
    exact .rfl

theorem Sorted.custody (sorted : s.Sorted) (moves : s.Moves after) : s.Custody after := by
  cases moves with
  | arrive length data =>
    refine .kept (.of_eq ?_) rfl rfl
    simp [held, Caller.held, CallerPhase.reserved]
  | @caller left right packet phase later shared found moves =>
    exact sorted.custody_caller found moves
  | @loop shared phase later found moves => exact sorted.custody_loop found moves
  | prioritySent | close => exact .kept .rfl rfl rfl

/-- The packets that have ever reserved bytes. -/
def reservations (s : SendSystem) : List OutboundPacket :=
  s.held ++ s.released

/-- Packets are numbered as they arrive. -/
def Numbered (s : SendSystem) : Prop :=
  s.callers.map (fun caller => caller.packet.id) = List.range s.callers.length

theorem Numbered.moves (numbered : s.Numbered) (moves : s.Moves after) : after.Numbered := by
  cases moves with
  | arrive length data =>
    unfold Numbered at numbered ⊢
    rw [map_append, numbered, length_append]
    exact range_succ.symm
  | caller found moves =>
    unfold Numbered at numbered ⊢
    rw [found] at numbered
    simpa using numbered
  | loop | prioritySent | close => exact numbered

theorem Numbered.other {caller other : Caller} (numbered : s.Numbered)
    (found : s.callers = left ++ caller :: right) (member : other ∈ left ++ right) :
    other.packet.id ≠ caller.packet.id := by
  have nodup : (s.callers.map fun caller => caller.packet.id).Nodup := by
    rw [numbered]
    exact nodup_range
  rw [found, map_append, map_cons, nodup_middle, ← map_append] at nodup
  intro same
  exact (nodup_cons.mp nodup).1 (mem_map.mpr ⟨other, member, same⟩)

end SendSystem

/-- The caller has not reserved anything yet. -/
def CallerPhase.early : CallerPhase → Bool
  | .entry | .loadLimit _ | .loadBytes _ _ | .swap _ _ _ | .refused _ | .waiting _ => true
  | _ => false

theorem CallerMoves.early (moves : CallerMoves s packet phase after later)
    (now : later.early = true) : phase.early = true := by
  cases moves with
  | @reserve waited limit => rfl
  | enterPriority | enterClosed | enter | load | refuse | fits | retry | wait | expire | take
  | leave => rfl
  | pass | queueFirst | overflow | block | expireFull | queue | abandon | giveBack | ignore | post
  | queuePriority | abandonPriority => cases now

namespace SendSystem

variable {s after : SendSystem}

theorem Moves.early {caller : Caller} (moves : s.Moves after) (member : caller ∈ after.callers)
    (early : caller.phase.early = true) :
    (∃ before ∈ s.callers, before.packet = caller.packet ∧ before.phase.early = true) ∨
      caller.packet.id = s.callers.length := by
  rcases moves.caller_cases member with known | ⟨_, new, _⟩ | ⟨phase, known, moves⟩
  · exact .inl ⟨caller, known, rfl, early⟩
  · exact .inr new
  · exact .inl ⟨_, known, rfl, moves.early early⟩

/-- No packet reserves twice. -/
structure Unique (s : SendSystem) : Prop where
  nodup : (s.reservations.map OutboundPacket.id).Nodup
  fresh : ∀ caller ∈ s.callers, caller.phase.early = true →
    caller.packet.id ∉ s.reservations.map OutboundPacket.id
  known : ∀ packet ∈ s.reservations, packet.id < s.callers.length

theorem Unique.of_perm (unique : s.Unique) (moves : s.Moves after)
    (perm : after.reservations.Perm s.reservations) : after.Unique := by
  have ids := perm.map OutboundPacket.id
  refine ⟨ids.nodup_iff.mpr unique.nodup, ?_, ?_⟩
  · intro caller member early
    rw [ids.mem_iff]
    rcases moves.early member early with ⟨before, known, same, early⟩ | new
    · rw [← same]
      exact unique.fresh before known early
    · rw [new]
      intro listed
      obtain ⟨packet, listed, same⟩ := mem_map.mp listed
      exact absurd (same ▸ unique.known packet listed) (Nat.lt_irrefl _)
  · intro packet member
    exact (unique.known packet (perm.mem_iff.mp member)).trans_le moves.grows.2.2

theorem Unique.moves (unique : s.Unique) (numbered : s.Numbered) (sorted : s.Sorted)
    (moves : s.Moves after) : after.Unique := by
  cases sorted.custody moves with
  | kept perm bytes released =>
    refine unique.of_perm moves ?_
    rw [reservations, released]
    exact perm.append_right _
  | released packet perm bytes released =>
    refine unique.of_perm moves ?_
    rw [reservations, released]
    exact perm_middle.trans (perm.symm.append_right _)
  | reserved left right packet waited limit found callers perm bytes released =>
    have log : after.reservations.Perm (packet :: s.reservations) := by
      rw [reservations, released]
      exact perm.append_right _
    have ids := log.map OutboundPacket.id
    rw [map_cons] at ids
    have member : (⟨packet, .swap waited limit s.shared.sendBytes⟩ : Caller) ∈ s.callers := by
      simp [found]
    refine ⟨?_, ?_, ?_⟩
    · rw [ids.nodup_iff, nodup_cons]
      exact ⟨unique.fresh _ member rfl, unique.nodup⟩
    · intro caller listed early
      rw [callers] at listed
      have other : caller ∈ left ++ right := by
        simp only [mem_append, mem_cons] at listed ⊢
        rcases listed with inLeft | rfl | inRight
        · exact .inl inLeft
        · cases waited <;> cases early
        · exact .inr inRight
      rw [ids.mem_iff, mem_cons, not_or]
      refine ⟨numbered.other found other, unique.fresh caller ?_ early⟩
      simp only [found, mem_append, mem_cons] at other ⊢
      tauto
    · intro packet listed
      refine Nat.lt_of_lt_of_le ?_ moves.grows.2.2
      rcases mem_cons.mp (log.mem_iff.mp listed) with rfl | known
      · have inRange : packet.id ∈ s.callers.map fun caller => caller.packet.id :=
          mem_map.mpr ⟨_, member, rfl⟩
        rw [numbered] at inRange
        exact mem_range.mp inRange
      · exact unique.known packet known

end SendSystem

/-- What a caller has loaded is not beyond the limits so far. -/
def Caller.Within (peak : Int) (caller : Caller) : Prop :=
  match caller.phase with
  | .loadBytes _ limit => limit ≤ peak
  | .swap _ limit current =>
    limit ≤ peak ∧ (current = 0 ∨ current + caller.packet.length ≤ limit)
  | _ => True

theorem Caller.Within.mono {peak later : Int} {caller : Caller} (within : caller.Within peak)
    (grows : peak ≤ later) : caller.Within later := by
  obtain ⟨packet, phase⟩ := caller
  cases phase with
  | loadBytes waited limit => exact Int.le_trans within grows
  | swap waited limit current => exact ⟨Int.le_trans within.1 grows, within.2⟩
  | _ => trivial

theorem CallerMoves.within {peak : Int} (moves : CallerMoves s packet phase after later)
    (limit : s.limit ≤ peak) (before : (⟨packet, phase⟩ : Caller).Within peak) :
    (⟨packet, later⟩ : Caller).Within peak ∧ after.limit = s.limit := by
  cases moves with
  | load => exact ⟨limit, rfl⟩
  | fits fits => exact ⟨⟨before, fits⟩, rfl⟩
  | retry => exact ⟨before.1, rfl⟩
  | @reserve waited limit => cases waited <;> exact ⟨trivial, rfl⟩
  | _ => exact ⟨trivial, rfl⟩

namespace SendSystem

variable {s after : SendSystem}

structure Limited (s : SendSystem) : Prop where
  limit : s.shared.limit ≤ s.peak
  callers : ∀ caller ∈ s.callers, caller.Within s.peak
  lengths : ∀ caller ∈ s.callers, caller.packet.data = true → caller.packet.length ≤ s.largest

theorem Limited.moves (limited : s.Limited) (moves : s.Moves after) : after.Limited := by
  obtain ⟨peak, largest, -⟩ := moves.grows
  refine ⟨?_, ?_, ?_⟩
  · cases moves with
    | caller found moves =>
      have before := limited.callers _ (found ▸ mem_append_right _ mem_cons_self)
      exact (moves.within limited.limit before).2.le.trans limited.limit
    | loop => exact le_max_right _ _
    | arrive | prioritySent | close => exact limited.limit
  · intro caller member
    rcases moves.caller_cases member with known | ⟨entry, -⟩ | ⟨phase, known, moves⟩
    · exact (limited.callers caller known).mono peak
    · rw [Caller.Within, entry]
      trivial
    · exact (moves.within limited.limit (limited.callers _ known)).1.mono peak
  · intro caller member data
    rcases moves.caller_cases member with known | ⟨-, -, bound⟩ | ⟨phase, known, -⟩
    · exact (limited.lengths caller known data).trans largest
    · exact bound data
    · exact (limited.lengths _ known data).trans largest

structure Accounts (s : SendSystem) : Prop where
  sorted : s.Sorted
  numbered : s.Numbered
  unique : s.Unique
  limited : s.Limited
  bytes : s.shared.sendBytes = totalLength s.held
  bound : s.shared.sendBytes ≤ max s.peak s.largest

theorem accounts_start (capacity priorityCapacity : Nat) :
    (start capacity priorityCapacity).Accounts := by
  refine ⟨⟨nofun, nofun, nofun⟩, rfl, ⟨nodup_nil, nofun, nofun⟩, ⟨?_, nofun, nofun⟩, rfl, ?_⟩
  · exact Int.le_refl _
  · exact le_max_of_le_left (Int.natCast_nonneg (64 * 1024))

theorem Accounts.moves (accounts : s.Accounts) (moves : s.Moves after) : after.Accounts := by
  obtain ⟨peak, largest, -⟩ := moves.grows
  have grown : max s.peak s.largest ≤ max after.peak (after.largest : Int) :=
    max_le_max peak (Int.ofNat_le.mpr largest)
  have now := accounts.bound.trans grown
  have balance : after.shared.sendBytes = totalLength after.held ∧
      after.shared.sendBytes ≤ max after.peak after.largest := by
    cases accounts.sorted.custody moves with
    | kept perm bytes released =>
      rw [bytes, totalLength_perm perm]
      exact ⟨accounts.bytes, now⟩
    | released packet perm bytes released =>
      have before := accounts.bytes
      rw [totalLength_perm perm, totalLength_cons] at before
      refine ⟨?_, ?_⟩ <;> omega
    | reserved left right packet waited limit found callers perm bytes released =>
      have member : (⟨packet, .swap waited limit s.shared.sendBytes⟩ : Caller) ∈ s.callers := by
        simp [found]
      have data : packet.data = true := accounts.sorted.callers _ member rfl
      have length : packet.length ≤ s.largest := accounts.limited.lengths _ member data
      obtain ⟨within, fits⟩ : limit ≤ s.peak ∧
          (s.shared.sendBytes = 0 ∨ s.shared.sendBytes + packet.length ≤ limit) :=
        accounts.limited.callers _ member
      refine ⟨?_, ?_⟩
      · rw [bytes, totalLength_perm perm, totalLength_cons, accounts.bytes, Int.add_comm]
      · rw [bytes]
        refine le_trans ?_ grown
        rcases fits with none | fits
        · rw [none, Int.zero_add]
          exact le_max_of_le_right (Int.ofNat_le.mpr length)
        · exact le_max_of_le_left (fits.trans within)
  exact ⟨accounts.sorted.moves moves, accounts.numbered.moves moves,
    accounts.unique.moves accounts.numbered accounts.sorted moves, accounts.limited.moves moves,
    balance.1, balance.2⟩

theorem Sorted.held_data (sorted : s.Sorted) : ∀ packet ∈ s.held, packet.data = true := by
  intro packet member
  rcases mem_append.mp member with early | inLoop
  · rcases mem_append.mp early with ofCaller | queued
    · obtain ⟨caller, _, member⟩ := mem_flatMap.mp ofCaller
      unfold Caller.held at member
      split at member
      · next both =>
        rw [mem_singleton.mp member]
        exact (Bool.and_eq_true_iff.mp both).1
      · cases member
    · exact sorted.send packet queued
  · cases phase : s.loop with
    | received | raised | release =>
      rw [phase, LoopPhase.held] at inLoop
      split at inLoop
      · next data => exact mem_singleton.mp inLoop ▸ data
      · cases inLoop
    | _ =>
      rw [phase] at inLoop
      cases inLoop

/-- In every reachable state `sendBytes` is the sum over the packets that hold a
reservation, no packet gives its reservation back twice, and the budget is kept. -/
theorem send_budget_accounted (reachable : s.Reachable) :
    s.shared.sendBytes = totalLength s.held ∧ 0 ≤ s.shared.sendBytes ∧
      ((s.held ++ s.released).map OutboundPacket.id).Nodup ∧
      (∀ packet ∈ s.held, packet.data = true) ∧
      s.shared.sendBytes ≤ max s.peak s.largest := by
  have accounts : s.Accounts :=
    reachable.induct accounts_start fun _ _ moves accounts => accounts.moves moves
  refine ⟨accounts.bytes, ?_, accounts.unique.nodup, ?_, accounts.bound⟩
  · rw [accounts.bytes]
    exact totalLength_nonneg _
  · exact accounts.sorted.held_data

/-- One packet in the queue, a second that finds it full, and a priority packet. -/
def crowded : List SendAction :=
  [.arrive 1200 true, .arrive 1400 true, .arrive 180 false] ++
    List.replicate 5 (.caller 0 .proceed) ++ List.replicate 6 (.caller 1 .proceed) ++
    [.caller 2 .proceed, .caller 2 .accepted]

theorem crowded_accounted :
    ∃ s, (start 1 1).run crowded = some s ∧ s.held.map OutboundPacket.length = [1400, 1200] ∧
      s.shared.sendBytes = totalLength s.held := by
  let s := ((start 1 1).run crowded).get (by decide)
  have ran : (start 1 1).run crowded = some s := (Option.some_get _).symm
  exact ⟨s, ran, by decide, (send_budget_accounted ⟨1, 1, crowded, ran⟩).1⟩

end SendSystem

end WgQuic.Bind
