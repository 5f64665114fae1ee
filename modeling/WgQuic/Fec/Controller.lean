import WgQuic.Fec.Decoder

/-!
# The adaptive controller

Feedback of the receiver and the loss counters of the carrier move the parity and
the interleave depth.  The loss estimate is a floating-point number: a call is given
the parity that it asks for.
-/

namespace WgQuic.Fec

def bypassReferenceRTT : Int := 100000000
def defaultDecreaseGroups : Int := 32
def maxDecreaseGroups : Int := 256
def interleaveParityFloor : Nat := 4
def interleaveMissingThreshold : Nat := 4
def interleaveDecreaseGroups : Nat := 32

/-- What `desiredParityLocked` can return. -/
abbrev DesiredParity := Fin (maxParityShards + 1)

structure Controller where
  parity : Nat := 1
  zeroLossGroups : Nat := 0
  observedFrames : Nat := 0
  decreaseGroups : Nat := 0
  unrecoveredGroups : Nat := 0
  severeLossGroups : Nat := 0
  interleaveHealthyFrames : Nat := 0
  /-- Nanoseconds. -/
  pathRTT : Int := 0
  dataShards : Nat := defaultDataShards
  transportInitialized : Bool := false
  lastTransportSent : Nat := 0
  lastTransportLost : Nat := 0
  interleave : Nat := 1
deriving DecidableEq, Repr

namespace Controller

def setDataShards (c : Controller) (n : Int) : Controller :=
  if 0 < n ∧ n ≤ maxDataShards then { c with dataShards := n.toNat } else c

def observePathRTT (c : Controller) (rtt : Int) : Controller :=
  if rtt ≤ 0 then c else { c with pathRTT := rtt }

/-- The sum of durations wraps. -/
def decreaseWindowLocked (c : Controller) (desired : Nat) : Int :=
  if c.parity ≠ 1 ∨ desired ≠ 0 ∨ c.pathRTT ≤ bypassReferenceRTT then defaultDecreaseGroups
  else
    let rttMultiple :=
      ((c.pathRTT + bypassReferenceRTT - 1).bmod (2 ^ 64)).tdiv bypassReferenceRTT
    min maxDecreaseGroups (defaultDecreaseGroups * rttMultiple)

/-- The run of groups without a loss. -/
def countLoss (c : Controller) (feedback : Feedback) : Controller :=
  if feedback.missing = 0 then
    { c with
      zeroLossGroups := c.zeroLossGroups + 1
      interleaveHealthyFrames := min (c.interleaveHealthyFrames + feedback.total)
        (interleaveDecreaseGroups * c.dataShards) }
  else { c with zeroLossGroups := 0, interleaveHealthyFrames := 0 }

/-- Half of a group, in 16 bits. -/
def severeLoss (feedback : Feedback) : Nat :=
  max 1 ((feedback.total + 1) % 2 ^ 16 / 2)

def countUnrecovered (c : Controller) (feedback : Feedback) : Controller :=
  { c with
    severeLossGroups :=
      if feedback.missing - feedback.recovered ≥ severeLoss feedback then c.severeLossGroups + 1
      else 0
    unrecoveredGroups := c.unrecoveredGroups + 1 }

def raiseParity (c : Controller) (feedback : Feedback) (desired : Nat) : Controller :=
  if c.parity < desired ∨ feedback.missing - feedback.recovered ≥ 2 ∨ c.unrecoveredGroups ≥ 3 then
    { c with parity := min (c.parity + 1) maxParityShards, unrecoveredGroups := 0 }
  else c

/-- A burst spreads the groups further. -/
def raiseInterleave (c : Controller) (feedback : Feedback) : Controller :=
  if c.interleave < maxInterleave ∧ c.parity ≥ interleaveParityFloor ∧
      (feedback.missing - feedback.recovered ≥ interleaveMissingThreshold ∨
        c.severeLossGroups ≥ 2) then
    { c with interleave := c.interleave * 2, severeLossGroups := 0 }
  else c

/-- A group that lost more than was recovered. -/
def observeUnrecovered (c : Controller) (feedback : Feedback) (desired : Nat) : Controller :=
  let c := ((c.countUnrecovered feedback).raiseParity feedback desired).raiseInterleave feedback
  { c with observedFrames := 0, decreaseGroups := 0 }

/-- The last `switch` of `Observe`. -/
def followDesired (c : Controller) (feedback : Feedback) (desired : Nat)
    (decreaseWindow : Int) : Controller :=
  if desired > c.parity ∧ feedback.missing > 0 ∧ c.observedFrames ≥ 32 then
    { c with parity := c.parity + 1, observedFrames := 0, decreaseGroups := 0 }
  else if desired < c.parity then
    if (c.decreaseGroups + 1 : Int) ≥ decreaseWindow then
      { c with parity := c.parity - 1, decreaseGroups := 0 }
    else { c with decreaseGroups := c.decreaseGroups + 1 }
  else { c with decreaseGroups := 0 }

def observeRecovered (c : Controller) (feedback : Feedback) (desired : Nat) : Controller :=
  let c := { c with unrecoveredGroups := 0, severeLossGroups := 0 }
  let decreaseWindow := c.decreaseWindowLocked desired
  if c.interleave > 1 ∧ c.interleaveHealthyFrames ≥ interleaveDecreaseGroups * c.dataShards then
    { c with
      interleave := c.interleave / 2
      interleaveHealthyFrames := 0
      zeroLossGroups := 0 }
  else if (c.zeroLossGroups : Int) ≥ decreaseWindow ∧ c.parity > desired then
    { c with parity := c.parity - 1, zeroLossGroups := 0, decreaseGroups := 0 }
  else c.followDesired feedback desired decreaseWindow

/-- The controller after `Observe`, once the loss estimate asks for `desired`. -/
def observed (c : Controller) (feedback : Feedback) (desired : DesiredParity) : Controller :=
  if feedback.total = 0 then c
  else
    let c := { c with observedFrames := c.observedFrames + feedback.total }
    if c.parity = 0 ∧ feedback.missing > 0 then
      { c with parity := 1, zeroLossGroups := 0, observedFrames := 0, decreaseGroups := 0 }
    else
      let c := c.countLoss feedback
      if feedback.missing > feedback.recovered then c.observeUnrecovered feedback desired
      else c.observeRecovered feedback desired

/-- `Observe`, with what its returns report. -/
def observe (c : Controller) (feedback : Feedback) (desired : DesiredParity) : Bool × Controller :=
  let after := c.observed feedback desired
  (if feedback.total = 0 then false else if c.parity = 0 ∧ feedback.missing > 0 then true
    else after.parity ≠ c.parity, after)

/-- `heavy` is whether the sample reaches half a percent, a floating-point comparison. -/
def transported (c : Controller) (packetsSent packetsLost : Nat) (heavy : Bool)
    (desired : DesiredParity) : Controller :=
  if c.transportInitialized = false ∨ packetsSent < c.lastTransportSent ∨
      packetsLost < c.lastTransportLost then
    { c with
      transportInitialized := true
      lastTransportSent := packetsSent
      lastTransportLost := packetsLost }
  else
    let sent := packetsSent - c.lastTransportSent
    if sent < 128 then c
    else
      let lost := min (packetsLost - c.lastTransportLost) sent
      let c := { c with lastTransportSent := packetsSent, lastTransportLost := packetsLost }
      if c.parity = 0 ∧ lost ≥ 2 ∧ heavy then { c with parity := 1, zeroLossGroups := 0 }
      else if desired.val > c.parity then
        { c with parity := c.parity + 1, decreaseGroups := 0 }
      else c

def observeTransport (c : Controller) (packetsSent packetsLost : Nat) (heavy : Bool)
    (desired : DesiredParity) : Bool × Controller :=
  let after := c.transported packetsSent packetsLost heavy desired
  (if c.transportInitialized = false ∨ packetsSent < c.lastTransportSent ∨
        packetsLost < c.lastTransportLost then false
    else if packetsSent - c.lastTransportSent < 128 then false else after.parity ≠ c.parity, after)

section Steps

variable {c after : Controller} {feedback : Feedback} {desired : Nat}

/-- The depth does not fall and the run of healthy frames goes on. -/
structure Keeps (c after : Controller) : Prop where
  frames : after.interleaveHealthyFrames = c.interleaveHealthyFrames
  dataShards : after.dataShards = c.dataShards
  interleave : c.interleave ≤ after.interleave

theorem Keeps.trans {mid : Controller} (first : Keeps c mid) (second : Keeps mid after) :
    Keeps c after :=
  ⟨second.frames.trans first.frames, second.dataShards.trans first.dataShards,
    first.interleave.trans second.interleave⟩

theorem raiseParity_keeps : Keeps c (c.raiseParity feedback desired) := by
  unfold raiseParity
  split
  · exact ⟨rfl, rfl, Nat.le_refl _⟩
  · exact ⟨rfl, rfl, Nat.le_refl _⟩

theorem raiseInterleave_keeps : Keeps c (c.raiseInterleave feedback) := by
  unfold raiseInterleave
  split
  · exact ⟨rfl, rfl, Nat.le_mul_of_pos_right _ Nat.two_pos⟩
  · exact ⟨rfl, rfl, Nat.le_refl _⟩

theorem observeUnrecovered_keeps : Keeps c (c.observeUnrecovered feedback desired) := by
  have counted : Keeps c (c.countUnrecovered feedback) := ⟨rfl, rfl, Nat.le_refl _⟩
  have raised : Keeps c ((c.countUnrecovered feedback).raiseParity feedback desired) :=
    counted.trans raiseParity_keeps
  exact (raised.trans raiseInterleave_keeps).trans ⟨rfl, rfl, Nat.le_refl _⟩

theorem followDesired_keeps {decreaseWindow : Int} :
    Keeps c (c.followDesired feedback desired decreaseWindow) := by
  unfold followDesired
  split
  · exact ⟨rfl, rfl, Nat.le_refl _⟩
  split
  · split
    · exact ⟨rfl, rfl, Nat.le_refl _⟩
    · exact ⟨rfl, rfl, Nat.le_refl _⟩
  · exact ⟨rfl, rfl, Nat.le_refl _⟩

/-- Everything that `Observe` can do to the depth and the run of healthy frames. -/
inductive Observes (c : Controller) (feedback : Feedback) (after : Controller) : Prop where
  | ignored (empty : feedback.total = 0) (same : after = c)
  /-- The early return of a controller without parity. -/
  | woken (counted : feedback.total ≠ 0) (zero : c.parity = 0) (lossy : 0 < feedback.missing)
      (keeps : Keeps c after)
  | halved (counted : feedback.total ≠ 0) (healthy : interleaveDecreaseGroups * c.dataShards ≤
        (c.countLoss feedback).interleaveHealthyFrames)
      (dataShards : after.dataShards = c.dataShards)
      (frames : after.interleaveHealthyFrames = 0) (lower : after.interleave < c.interleave)
  | kept (counted : feedback.total ≠ 0) (keeps : Keeps (c.countLoss feedback) after)

theorem countLoss_dataShards : (c.countLoss feedback).dataShards = c.dataShards := by
  unfold countLoss
  split <;> rfl

theorem countLoss_interleave : (c.countLoss feedback).interleave = c.interleave := by
  unfold countLoss
  split <;> rfl

theorem countLoss_frames_le : (c.countLoss feedback).interleaveHealthyFrames ≤
      if feedback.missing = 0 then c.interleaveHealthyFrames + feedback.total else 0 := by
  unfold countLoss
  split
  · exact Nat.min_le_left _ _
  · exact Nat.le_refl _

theorem observeRecovered_cases (c : Controller) (feedback : Feedback) (desired : Nat) :
    (interleaveDecreaseGroups * c.dataShards ≤ c.interleaveHealthyFrames ∧
      (c.observeRecovered feedback desired).dataShards = c.dataShards ∧
      (c.observeRecovered feedback desired).interleaveHealthyFrames = 0 ∧
      (c.observeRecovered feedback desired).interleave < c.interleave) ∨
    Keeps c (c.observeRecovered feedback desired) := by
  unfold observeRecovered
  dsimp only
  split
  · next long =>
    exact .inl ⟨long.2, rfl, rfl, Nat.div_lt_self (Nat.zero_lt_of_lt long.1) Nat.one_lt_two⟩
  split
  · exact .inr ⟨rfl, rfl, Nat.le_refl _⟩
  · have reset : Keeps c { c with unrecoveredGroups := 0, severeLossGroups := 0 } :=
      ⟨rfl, rfl, Nat.le_refl _⟩
    exact .inr (reset.trans followDesired_keeps)

theorem observed_cases (c : Controller) (feedback : Feedback) (desired : DesiredParity) :
    Observes c feedback (c.observed feedback desired) := by
  unfold observed
  split
  · next empty => exact .ignored empty rfl
  next counted =>
  dsimp only
  split
  · next woken => exact .woken counted woken.1 woken.2 ⟨rfl, rfl, Nat.le_refl _⟩
  have same : Keeps (c.countLoss feedback)
      (({ c with observedFrames := c.observedFrames + feedback.total } :
        Controller).countLoss feedback) := by
    unfold countLoss
    split <;> exact ⟨rfl, rfl, Nat.le_refl _⟩
  split
  · exact .kept counted (same.trans observeUnrecovered_keeps)
  rcases observeRecovered_cases (({ c with observedFrames := c.observedFrames + feedback.total } :
    Controller).countLoss feedback) feedback desired
    with ⟨healthy, dataShards, frames, lower⟩ | keeps
  · rw [countLoss_dataShards] at healthy dataShards
    rw [countLoss_interleave] at lower
    exact .halved counted (same.frames ▸ healthy) dataShards frames lower
  · exact .kept counted (same.trans keeps)

end Steps

inductive Call where
  | observe (feedback : Feedback) (desired : DesiredParity)
  | observeTransport (packetsSent packetsLost : Nat) (heavy : Bool) (desired : DesiredParity)
  | observePathRTT (rtt : Int)
  | setDataShards (n : Int)

/-- A controller, with the feedbacks since the later of the last halving and the last
lossy feedback. -/
structure Observation where
  controller : Controller := {}
  since : List Feedback := []
  /-- That lossy feedback found the parity at zero. -/
  woken : Bool := false

def Halves (c : Controller) (feedback : Feedback) (desired : DesiredParity) : Prop :=
  (c.observe feedback desired).2.interleave < c.interleave

instance (c : Controller) (feedback : Feedback) (desired : DesiredParity) :
    Decidable (Halves c feedback desired) :=
  inferInstanceAs (Decidable (_ < _))

def Observation.step (o : Observation) : Call → Observation
  | .observe feedback desired =>
    let controller := (o.controller.observe feedback desired).2
    if Halves o.controller feedback desired then { controller }
    else if feedback.total > 0 ∧ feedback.missing > 0 then
      { controller, woken := o.controller.parity = 0 }
    else { o with controller, since := o.since ++ [feedback] }
  | .observeTransport packetsSent packetsLost heavy desired =>
    { o with controller :=
      (o.controller.observeTransport packetsSent packetsLost heavy desired).2 }
  | .observePathRTT rtt => { o with controller := o.controller.observePathRTT rtt }
  | .setDataShards n => { o with controller := o.controller.setDataShards n }

def Observation.run (calls : List Call) : Observation :=
  calls.foldl Observation.step {}

def frames (feedbacks : List Feedback) : Nat :=
  (feedbacks.map Feedback.total).sum

/-- Unless a wake-up has skipped the count, the healthy frames are among those since. -/
structure Counts (o : Observation) : Prop where
  shards : 0 < o.controller.dataShards
  clean : ∀ feedback ∈ o.since, feedback.total = 0 ∨ feedback.missing = 0
  counted : o.woken = false → o.controller.interleaveHealthyFrames ≤ frames o.since

theorem frames_append (feedbacks : List Feedback) (feedback : Feedback) :
    frames (feedbacks ++ [feedback]) = frames feedbacks + feedback.total := by
  simp [frames]

section Counts

variable {o : Observation}

theorem Counts.of_same (counts : Counts o) {c : Controller} (shards : 0 < c.dataShards)
    (same : c.interleaveHealthyFrames = o.controller.interleaveHealthyFrames) :
    Counts { o with controller := c } := by
  refine ⟨shards, counts.clean, ?_⟩
  intro asleep
  rw [same]
  exact counts.counted asleep

theorem transported_same (c : Controller) (packetsSent packetsLost : Nat) (heavy : Bool)
    (desired : DesiredParity) :
    (c.transported packetsSent packetsLost heavy desired).dataShards = c.dataShards ∧
    (c.transported packetsSent packetsLost heavy desired).interleaveHealthyFrames =
      c.interleaveHealthyFrames := by
  unfold transported
  split
  · exact ⟨rfl, rfl⟩
  dsimp only
  split
  · exact ⟨rfl, rfl⟩
  split
  · exact ⟨rfl, rfl⟩
  split
  · exact ⟨rfl, rfl⟩
  · exact ⟨rfl, rfl⟩

theorem Observes.dataShards {c after : Controller} {feedback : Feedback}
    (observes : Observes c feedback after) : after.dataShards = c.dataShards := by
  cases observes with
  | ignored empty same => rw [same]
  | woken counted zero lossy keeps => exact keeps.dataShards
  | halved counted healthy dataShards frames lower => exact dataShards
  | kept counted keeps => exact keeps.dataShards.trans countLoss_dataShards

theorem Counts.observe (counts : Counts o) (feedback : Feedback) (desired : DesiredParity) :
    Counts (o.step (.observe feedback desired)) := by
  have observes := observed_cases o.controller feedback desired
  have shards : 0 < (o.controller.observed feedback desired).dataShards :=
    observes.dataShards ▸ counts.shards
  rw [Observation.step]
  by_cases halves : Halves o.controller feedback desired
  · rw [if_pos halves]
    refine ⟨shards, nofun, fun _ => ?_⟩
    cases observes with
    | ignored empty same => exact absurd halves (by simp [Halves, Controller.observe, same])
    | woken counted zero lossy keeps => exact absurd halves (Nat.not_lt.mpr keeps.interleave)
    | halved counted healthy dataShards frames lower => exact Nat.le_of_eq frames
    | kept counted keeps =>
      exact absurd halves (Nat.not_lt.mpr (countLoss_interleave ▸ keeps.interleave))
  rw [if_neg halves]
  by_cases lossy : feedback.total > 0 ∧ feedback.missing > 0
  · rw [if_pos lossy]
    refine ⟨shards, nofun, fun asleep => ?_⟩
    have parity : o.controller.parity ≠ 0 := by simpa using asleep
    cases observes with
    | ignored empty same => exact absurd empty (Nat.ne_of_gt lossy.1)
    | woken counted zero lossy keeps => exact absurd zero parity
    | halved counted healthy dataShards frames lower => exact absurd lower halves
    | kept counted keeps =>
      refine keeps.frames.trans_le (countLoss_frames_le.trans ?_)
      rw [if_neg (Nat.ne_of_gt lossy.2)]
      exact Nat.zero_le _
  · rw [if_neg lossy]
    have clean : feedback.total = 0 ∨ feedback.missing = 0 := by omega
    refine ⟨shards, ?_, fun asleep => ?_⟩
    · intro other member
      rcases List.mem_append.mp member with earlier | last
      · exact counts.clean other earlier
      · rw [List.mem_singleton.mp last]
        exact clean
    · rw [frames_append]
      have before := counts.counted asleep
      cases observes with
      | ignored empty same =>
        rw [empty]
        exact (congrArg interleaveHealthyFrames same).trans_le before
      | woken counted zero lossy keeps =>
        exact absurd (clean.resolve_left counted) (Nat.ne_of_gt lossy)
      | halved counted healthy dataShards frames lower => exact absurd lower halves
      | kept counted keeps =>
        refine keeps.frames.trans_le (countLoss_frames_le.trans ?_)
        rw [if_pos (clean.resolve_left counted)]
        exact Nat.add_le_add_right before _

theorem Counts.step (counts : Counts o) (call : Call) : Counts (o.step call) := by
  cases call with
  | observe feedback desired => exact counts.observe feedback desired
  | observeTransport packetsSent packetsLost heavy desired =>
    obtain ⟨dataShards, same⟩ := transported_same o.controller packetsSent packetsLost heavy desired
    exact counts.of_same (dataShards ▸ counts.shards) same
  | observePathRTT rtt =>
    rw [Observation.step, observePathRTT]
    split
    · exact counts
    · exact counts.of_same counts.shards rfl
  | setDataShards n =>
    rw [Observation.step, Controller.setDataShards]
    split
    · next bound => exact counts.of_same (by simpa using bound.1) rfl
    · exact counts

theorem counts_run (calls : List Call) : Counts (Observation.run calls) := by
  have from_any : ∀ o, Counts o → Counts (calls.foldl Observation.step o) := by
    induction calls with
    | nil => exact fun _ counts => counts
    | cons call rest ih => exact fun o counts => ih _ (counts.step call)
  exact from_any {} ⟨by decide, nofun, fun _ => Nat.zero_le _⟩

end Counts

/-- A halving comes after a clean run, if the lossy feedback before it was counted. -/
theorem halving_after_clean_run (calls : List Call) (feedback : Feedback) (desired : DesiredParity)
    (halves : Halves (Observation.run calls).controller feedback desired)
    (counted : (Observation.run calls).woken = false)
    (truthful : ∀ earlier ∈ (Observation.run calls).since, earlier.total = 0 →
      earlier.missing = 0) :
    (∀ earlier ∈ (Observation.run calls).since ++ [feedback], earlier.missing = 0) ∧
      interleaveDecreaseGroups * (Observation.run calls).controller.dataShards ≤
        frames ((Observation.run calls).since ++ [feedback]) := by
  have counts := counts_run calls
  generalize Observation.run calls = o at halves counted truthful counts ⊢
  have enough : interleaveDecreaseGroups * o.controller.dataShards ≤
      (o.controller.countLoss feedback).interleaveHealthyFrames := by
    cases observed_cases o.controller feedback desired with
    | ignored empty same => exact absurd halves (by simp [Halves, Controller.observe, same])
    | woken counted zero lossy keeps => exact absurd halves (Nat.not_lt.mpr keeps.interleave)
    | halved counted healthy dataShards frames lower => exact healthy
    | kept counted keeps =>
      exact absurd halves (Nat.not_lt.mpr (countLoss_interleave ▸ keeps.interleave))
  have positive : 0 < interleaveDecreaseGroups * o.controller.dataShards :=
    Nat.mul_pos (by decide) counts.shards
  have bound := enough.trans countLoss_frames_le
  have clean : feedback.missing = 0 := by
    by_contra lossy
    rw [if_neg lossy] at bound
    exact absurd bound (Nat.not_le.mpr positive)
  rw [if_pos clean] at bound
  refine ⟨?_, ?_⟩
  · intro earlier member
    rcases List.mem_append.mp member with earlier | last
    · exact (counts.clean _ earlier).elim (truthful _ earlier) id
    · rw [List.mem_singleton.mp last]
      exact clean
  · rw [frames_append]
    exact bound.trans (Nat.add_le_add_right (counts.counted counted) _)

def burst : List Call :=
  List.replicate 3 (.observe { epoch := 0, groupID := 0, missing := 8, total := 8 } 8)

/-- Groups of one frame, all received. -/
def trickle (count : Nat) : List Call :=
  List.replicate count (.observe { epoch := 0, groupID := 0, missing := 0, total := 1 } 0)

/-- The parity falls to zero before the depth does; the loss that wakes it up does not
end the run of healthy frames. -/
theorem halving_after_loss : ∃ calls feedback desired,
      Halves (Observation.run calls).controller feedback desired ∧
      frames ((Observation.run calls).since ++ [feedback]) <
        interleaveDecreaseGroups * (Observation.run calls).controller.dataShards := by
  refine ⟨burst ++ trickle 255 ++
    [.observe { epoch := 0, groupID := 0, missing := 1, total := 1 } 0],
    { epoch := 0, groupID := 0, missing := 0, total := 1 }, 0, ?_⟩
  decide +kernel

theorem halving_after_trickle : Halves (Observation.run (burst ++ trickle 255)).controller
        { epoch := 0, groupID := 0, missing := 0, total := 1 } 0 ∧
      interleaveDecreaseGroups * (Observation.run (burst ++ trickle 255)).controller.dataShards ≤
        frames ((Observation.run (burst ++ trickle 255)).since ++
          [{ epoch := 0, groupID := 0, missing := 0, total := 1 }]) := by
  have halves : Halves (Observation.run (burst ++ trickle 255)).controller
      { epoch := 0, groupID := 0, missing := 0, total := 1 } 0 := by
    decide +kernel
  refine ⟨halves, (halving_after_clean_run _ _ _ halves ?_ ?_).2⟩
  · decide +kernel
  · decide +kernel

end Controller

end WgQuic.Fec
