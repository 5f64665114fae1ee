import WgQuic.Fec.Controller

/-!
# Direction and range of the controller

The parity moves one step at a time and in the direction of the feedback, and what
the controller publishes is its state.
-/

namespace WgQuic.Fec

namespace Controller

variable {c : Controller} {feedback : Feedback} {desired : Nat}

theorem one_le_max : 1 ≤ maxParityShards := by decide

/-- What a call that is told of a feedback does to the two targets. -/
structure Steers (feedback : Feedback) (c after : Controller) : Prop where
  up : after.parity ≤ c.parity + 1
  down : c.parity ≤ after.parity + 1
  range : c.parity ≤ maxParityShards → after.parity ≤ maxParityShards
  clean : feedback.missing = 0 → after.parity ≤ c.parity
  lossy : feedback.recovered < feedback.missing → c.parity ≤ after.parity
  depth : after.interleave = c.interleave ∨
    (feedback.recovered < feedback.missing ∧ c.interleave < maxInterleave ∧
      after.interleave = c.interleave * 2 ∧ interleaveParityFloor ≤ after.parity) ∨
    (feedback.missing ≤ feedback.recovered ∧ 1 < c.interleave ∧ after.interleave = c.interleave / 2)

theorem observeUnrecovered_steers (range : c.parity ≤ maxParityShards)
    (lossy : feedback.recovered < feedback.missing) :
    Steers feedback c (c.observeUnrecovered feedback desired) := by
  let counted := c.countUnrecovered feedback
  have raised : c.parity ≤ (counted.raiseParity feedback desired).parity ∧
      (counted.raiseParity feedback desired).parity ≤ c.parity + 1 ∧
      (counted.raiseParity feedback desired).parity ≤ maxParityShards ∧
      (counted.raiseParity feedback desired).interleave = c.interleave := by
    unfold raiseParity
    split
    · exact ⟨le_min (Nat.le_succ _) range, Nat.min_le_left _ _, Nat.min_le_right _ _, rfl⟩
    · exact ⟨Nat.le_refl _, Nat.le_succ _, range, rfl⟩
  obtain ⟨least, most, below, same⟩ := raised
  have dirty : feedback.missing ≠ 0 := Nat.ne_of_gt (Nat.zero_lt_of_lt lossy)
  unfold observeUnrecovered
  unfold raiseInterleave
  split
  · next burst =>
    refine ⟨most, least.trans (Nat.le_succ _), fun _ => below, fun clean => absurd clean dirty,
      fun _ => least, .inr (.inl ⟨lossy, same ▸ burst.1, ?_, burst.2.1⟩)⟩
    exact congrArg (· * 2) same
  · exact ⟨most, least.trans (Nat.le_succ _), fun _ => below, fun clean => absurd clean dirty,
      fun _ => least, .inl same⟩

theorem followDesired_steers {decreaseWindow : Int} (range : desired ≤ maxParityShards)
    (covered : feedback.missing ≤ feedback.recovered) :
    Steers feedback c (c.followDesired feedback desired decreaseWindow) := by
  have notLossy : ¬feedback.recovered < feedback.missing := Nat.not_lt.mpr covered
  have lowered : ∀ {after : Controller}, after.parity ≤ c.parity → c.parity ≤ after.parity + 1 →
      after.interleave = c.interleave → Steers feedback c after :=
    fun least most same => ⟨least.trans (Nat.le_succ _), most, least.trans, fun _ => least,
      fun lossy => absurd lossy notLossy, .inl same⟩
  unfold followDesired
  split
  · next rises =>
    refine ⟨Nat.le_refl _, by dsimp only; omega, fun _ => rises.1.trans_le range, ?_,
      fun lossy => absurd lossy notLossy, .inl rfl⟩
    exact fun clean => absurd clean (Nat.ne_of_gt rises.2.1)
  · split
    · split
      · exact lowered (Nat.sub_le _ _) (by dsimp only; omega) rfl
      · exact lowered (Nat.le_refl _) (Nat.le_succ _) rfl
    · exact lowered (Nat.le_refl _) (Nat.le_succ _) rfl

theorem Steers.of_same {counted after : Controller} (steers : Steers feedback counted after)
    (parity : counted.parity = c.parity) (interleave : counted.interleave = c.interleave) :
    Steers feedback c after := by
  obtain ⟨up, down, range, clean, lossy, depth⟩ := steers
  rw [parity] at up down range clean lossy
  rw [interleave] at depth
  exact ⟨up, down, range, clean, lossy, depth⟩

theorem observeRecovered_steers (range : desired ≤ maxParityShards)
    (covered : feedback.missing ≤ feedback.recovered) :
    Steers feedback c (c.observeRecovered feedback desired) := by
  have notLossy : ¬feedback.recovered < feedback.missing := Nat.not_lt.mpr covered
  unfold observeRecovered
  dsimp only
  split
  · next healthy =>
    refine ⟨Nat.le_succ _, Nat.le_succ _, id, fun _ => Nat.le_refl _, fun _ => Nat.le_refl _, ?_⟩
    exact .inr (.inr ⟨covered, healthy.1, rfl⟩)
  split
  · refine ⟨?_, ?_, fun below => (Nat.sub_le _ _).trans below, fun _ => Nat.sub_le _ _,
      fun lossy => absurd lossy notLossy, .inl rfl⟩
    · exact (Nat.sub_le _ _).trans (Nat.le_succ _)
    · exact Nat.le_add_of_sub_le (Nat.le_refl _)
  · exact (followDesired_steers range covered).of_same rfl rfl

theorem countLoss_parity : (c.countLoss feedback).parity = c.parity := by
  unfold countLoss
  split <;> rfl

theorem observed_steers (range : c.parity ≤ maxParityShards) (desired : DesiredParity) :
    Steers feedback c (c.observed feedback desired) := by
  have most : desired.val ≤ maxParityShards := Nat.le_of_lt_succ desired.isLt
  unfold observed
  split
  · exact ⟨Nat.le_succ _, Nat.le_succ _, id, fun _ => Nat.le_refl _, fun _ => Nat.le_refl _,
      .inl rfl⟩
  dsimp only
  split
  · next woken =>
    refine ⟨Nat.le_add_left _ _, ?_, fun _ => one_le_max, ?_, fun _ => ?_, .inl rfl⟩
    · exact woken.1.trans_le (Nat.zero_le _)
    · exact fun clean => absurd clean (Nat.ne_of_gt woken.2)
    · exact woken.1.trans_le (Nat.zero_le _)
  split
  · next lossy =>
    refine (observeUnrecovered_steers ?_ lossy).of_same ?_ ?_
    · exact countLoss_parity.trans_le range
    · exact countLoss_parity
    · exact countLoss_interleave
  next covered =>
  apply (observeRecovered_steers most (Nat.not_lt.mp covered)).of_same
  · exact countLoss_parity
  · exact countLoss_interleave

theorem transported_raises (c : Controller) (packetsSent packetsLost : Nat) (heavy : Bool)
    (desired : DesiredParity) : let after := c.transported packetsSent packetsLost heavy desired
    c.parity ≤ after.parity ∧ after.parity ≤ c.parity + 1 ∧
      (c.parity ≤ maxParityShards → after.parity ≤ maxParityShards) ∧
      after.interleave = c.interleave := by
  have same : c.parity ≤ c.parity ∧ c.parity ≤ c.parity + 1 ∧
      (c.parity ≤ maxParityShards → c.parity ≤ maxParityShards) ∧ c.interleave = c.interleave :=
    ⟨Nat.le_refl _, Nat.le_succ _, id, rfl⟩
  unfold transported
  dsimp only
  split
  · exact same
  split
  · exact same
  split
  · next woken =>
    exact ⟨woken.1.trans_le (Nat.zero_le _), Nat.le_add_left _ _, fun _ => one_le_max, rfl⟩
  split
  · next rises =>
    have most : desired.val ≤ maxParityShards := Nat.le_of_lt_succ desired.isLt
    exact ⟨Nat.le_succ _, Nat.le_refl _, fun _ => (show _ < _ from rises).trans_le most, rfl⟩
  · exact same

theorem observe_reports (c : Controller) (feedback : Feedback) (desired : DesiredParity) :
    (c.observe feedback desired).1 = true ↔ (c.observe feedback desired).2.parity ≠ c.parity := by
  simp only [observe]
  split
  · next empty => simp [observed, empty]
  next counted =>
  split
  · next woken => simp [observed, counted, woken]
  · simp

theorem observeTransport_reports (c : Controller) (packetsSent packetsLost : Nat) (heavy : Bool)
    (desired : DesiredParity) :
    (c.observeTransport packetsSent packetsLost heavy desired).1 = true ↔
      (c.observeTransport packetsSent packetsLost heavy desired).2.parity ≠ c.parity := by
  simp only [observeTransport]
  split
  · next first => simp [transported, first]
  next later =>
  split
  · next few => simp [transported, later, few]
  · simp

end Controller

/-- A controller with its loss estimate and the values that readers load. -/
structure Published (Loss : Type) where
  controller : Controller := {}
  lossEWMA : Loss
  paritySnapshot : Nat := 1
  interleaveSnapshot : Nat := 1
  lossSnapshotPPM : Nat := 0

namespace Published

variable {Loss : Type} (ppm : Loss → Nat)

def storeSnapshotsLocked (p : Published Loss) : Published Loss :=
  { p with
    paritySnapshot := p.controller.parity
    interleaveSnapshot := p.controller.interleave
    lossSnapshotPPM := ppm p.lossEWMA }

/-- `Observe`, with the loss estimate that the sample leads to. -/
def observe (p : Published Loss) (feedback : Feedback) (desired : DesiredParity) (loss : Loss) :
    Bool × Published Loss :=
  let result := p.controller.observe feedback desired
  (result.1, storeSnapshotsLocked ppm
    { p with
      controller := result.2
      lossEWMA := if feedback.total = 0 then p.lossEWMA else loss })

def observeTransport (p : Published Loss) (packetsSent packetsLost : Nat) (heavy : Bool)
    (desired : DesiredParity) (loss : Loss) : Bool × Published Loss :=
  let c := p.controller
  let result := c.observeTransport packetsSent packetsLost heavy desired
  (result.1, storeSnapshotsLocked ppm
    { p with
      controller := result.2
      lossEWMA :=
        if c.transportInitialized = false ∨ packetsSent < c.lastTransportSent ∨
            packetsLost < c.lastTransportLost ∨ packetsSent - c.lastTransportSent < 128 then
          p.lossEWMA
        else loss })

/-- A call, and its result if it has one. -/
def step (p : Published Loss) (call : Controller.Call) (loss : Loss) :
    Option Bool × Published Loss :=
  match call with
  | .observe feedback desired =>
    let result := p.observe ppm feedback desired loss
    (some result.1, result.2)
  | .observeTransport packetsSent packetsLost heavy desired =>
    let result := p.observeTransport ppm packetsSent packetsLost heavy desired loss
    (some result.1, result.2)
  | .observePathRTT rtt => (none, { p with controller := p.controller.observePathRTT rtt })
  | .setDataShards n => (none, { p with controller := p.controller.setDataShards n })

/-- `NewController` and a sequence of calls. -/
def run (zero : Loss) (calls : List (Controller.Call × Loss)) : Published Loss :=
  calls.foldl (fun p call => (p.step ppm call.1 call.2).2) { lossEWMA := zero }

/-- The snapshots are the state. -/
structure Current (p : Published Loss) : Prop where
  parity : p.paritySnapshot = p.controller.parity
  interleave : p.interleaveSnapshot = p.controller.interleave
  loss : p.lossSnapshotPPM = ppm p.lossEWMA

structure Ranged (c : Controller) : Prop where
  parity : c.parity ≤ maxParityShards
  interleave : c.interleave = 1 ∨ c.interleave = 2 ∨ c.interleave = 4

/-- Where a call may take the parity and the depth. -/
def Directed (c after : Controller) : Controller.Call → Prop
  | .observe feedback _ =>
    (feedback.missing = 0 → after.parity ≤ c.parity) ∧
    (feedback.recovered < feedback.missing → c.parity ≤ after.parity) ∧
    (after.interleave = c.interleave ∨
      (feedback.recovered < feedback.missing ∧ interleaveParityFloor ≤ after.parity ∧
        after.interleave = c.interleave * 2) ∨
      (feedback.missing ≤ feedback.recovered ∧ c.interleave = after.interleave * 2))
  | .observeTransport .. => c.parity ≤ after.parity ∧ after.interleave = c.interleave
  | .observePathRTT _ | .setDataShards _ =>
    after.parity = c.parity ∧ after.interleave = c.interleave

/-- One call on a controller in range whose snapshots are current. -/
structure Moves (p : Published Loss) (call : Controller.Call)
    (result : Option Bool × Published Loss) : Prop where
  current : Current ppm result.2
  ranged : Ranged result.2.controller
  up : result.2.controller.parity ≤ p.controller.parity + 1
  down : p.controller.parity ≤ result.2.controller.parity + 1
  directed : Directed p.controller result.2.controller call
  reported : ∀ changed, result.1 = some changed →
    (changed = true ↔ result.2.controller.parity ≠ p.controller.parity)

variable {ppm} {p : Published Loss}

theorem Ranged.steered {c after : Controller} {feedback : Feedback} (ranged : Ranged c)
    (desired : DesiredParity) (steers : Controller.Steers feedback c after) :
    Ranged after ∧ Directed c after (.observe feedback desired) := by
  obtain ⟨low, depths⟩ := ranged
  rcases steers.depth with same | ⟨lossy, room, doubled, floor⟩ | ⟨covered, deep, halved⟩
  · exact ⟨⟨steers.range low, same ▸ depths⟩, steers.clean, steers.lossy, .inl same⟩
  · refine ⟨⟨steers.range low, ?_⟩, steers.clean, steers.lossy, .inr (.inl ⟨lossy, floor, doubled⟩)⟩
    have below : c.interleave < 4 := room
    omega
  · have half : c.interleave = after.interleave * 2 := by omega
    refine ⟨⟨steers.range low, ?_⟩, steers.clean, steers.lossy, .inr (.inr ⟨covered, half⟩)⟩
    omega

/-- A call that returns nothing and leaves the targets alone. -/
theorem Current.untouched {c : Controller} {call : Controller.Call} (current : Current ppm p)
    (ranged : Ranged p.controller)
    (same : c.parity = p.controller.parity ∧ c.interleave = p.controller.interleave)
    (directed : Directed p.controller c call) :
    Moves ppm p call (none, { p with controller := c }) := by
  obtain ⟨parity, interleave⟩ := same
  refine ⟨⟨?_, ?_, current.loss⟩, ⟨?_, ?_⟩, ?_, ?_, directed, nofun⟩
  · exact current.parity.trans parity.symm
  · exact current.interleave.trans interleave.symm
  · exact parity.trans_le ranged.parity
  · exact interleave ▸ ranged.interleave
  · exact parity.trans_le (Nat.le_succ _)
  · exact parity.symm.trans_le (Nat.le_succ _)

theorem step_moves (current : Current ppm p) (ranged : Ranged p.controller)
    (call : Controller.Call) (loss : Loss) : Moves ppm p call (p.step ppm call loss) := by
  cases call with
  | observe feedback desired =>
    have steers : Controller.Steers feedback p.controller
        (p.controller.observed feedback desired) :=
      Controller.observed_steers ranged.parity desired
    obtain ⟨range, directed⟩ := ranged.steered desired steers
    refine ⟨⟨rfl, rfl, rfl⟩, range, steers.up, steers.down, directed, ?_⟩
    intro changed result
    obtain rfl := Option.some.inj result
    exact Controller.observe_reports p.controller feedback desired
  | observeTransport packetsSent packetsLost heavy desired =>
    obtain ⟨least, most, low, depth⟩ :=
      Controller.transported_raises p.controller packetsSent packetsLost heavy desired
    refine ⟨⟨rfl, rfl, rfl⟩, ⟨low ranged.parity, ?_⟩, most, least.trans (Nat.le_succ _),
      ⟨least, depth⟩, ?_⟩
    · exact (congrArg (fun depth => depth = 1 ∨ depth = 2 ∨ depth = 4) depth).mpr ranged.interleave
    · intro changed result
      obtain rfl := Option.some.inj result
      exact Controller.observeTransport_reports p.controller packetsSent packetsLost heavy desired
  | observePathRTT rtt =>
    have same : (p.controller.observePathRTT rtt).parity = p.controller.parity ∧
        (p.controller.observePathRTT rtt).interleave = p.controller.interleave := by
      unfold Controller.observePathRTT
      split <;> exact ⟨rfl, rfl⟩
    exact current.untouched ranged same same
  | setDataShards n =>
    have same : (p.controller.setDataShards n).parity = p.controller.parity ∧
        (p.controller.setDataShards n).interleave = p.controller.interleave := by
      unfold Controller.setDataShards
      split <;> exact ⟨rfl, rfl⟩
    exact current.untouched ranged same same

theorem run_current {zero : Loss} (start : ppm zero = 0) (calls : List (Controller.Call × Loss)) :
    Current ppm (run ppm zero calls) ∧ Ranged (run ppm zero calls).controller := by
  induction calls using List.reverseRecOn with
  | nil => exact ⟨⟨rfl, rfl, start.symm⟩, Controller.one_le_max, .inl rfl⟩
  | append_singleton calls call ih =>
    obtain ⟨current, ranged⟩ := ih
    have moves := step_moves current ranged call.1 call.2
    rw [run, List.foldl_concat]
    exact ⟨moves.current, moves.ranged⟩

/-- The snapshots follow the state, and the parity and the depth stay in range and move
in the direction of what is observed, one step at a time. -/
theorem controller_direction_and_range {zero : Loss} (start : ppm zero = 0)
    (calls : List (Controller.Call × Loss)) :
    Current ppm (run ppm zero calls) ∧ Ranged (run ppm zero calls).controller ∧ ∀ call loss,
        Moves ppm (run ppm zero calls) call ((run ppm zero calls).step ppm call loss) := by
  obtain ⟨current, ranged⟩ := run_current start calls
  exact ⟨current, ranged, step_moves current ranged⟩

theorem direction_of_a_burst : Current id (run id 0 (Controller.burst.map fun call => (call, 7))) ∧
      (run id 0 (Controller.burst.map fun call => (call, 7))).controller.interleave = 2 :=
  ⟨(@controller_direction_and_range Nat id 0 rfl (Controller.burst.map fun call => (call, 7))).1,
    by decide⟩

end Published

end WgQuic.Fec
