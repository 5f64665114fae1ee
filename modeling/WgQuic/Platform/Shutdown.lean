import WgQuic.Platform.Linux
import WgQuic.Platform.RouteProgress

/-!
# Shutting down after runtime route changes

The cleanup of a Linux host is made when the interface starts, and takes back what
was installed then.  Runtime transactions change the routes without it.
-/

namespace WgQuic.Platform

open List Net PeerRoutes

structure LinuxKernel where
  entries : Finset LinuxEntry := ∅
  srcValidMark : Text := "0".toList
  /-- The resolver programs that are installed. -/
  programs : List String := []

namespace LinuxKernel

/-- Adding what exists and deleting what does not fail; everything else works. -/
def execute (k : LinuxKernel) : LinuxCommand → Except RouteError Unit × LinuxKernel
  | .add entry =>
    if entry ∈ k.entries then (.error (.text "RTNETLINK answers: File exists"), k)
    else (.ok (), { k with entries := insert entry k.entries })
  | .delete entry =>
    if entry ∈ k.entries then (.ok (), { k with entries := k.entries.erase entry })
    else (.error (.text "RTNETLINK answers: No such process"), k)
  | .setSrcValidMark value => (.ok (), { k with srcValidMark := value })
  | .addressAdd _ _ | .linkUp _ | .resolvectl _ | .resolvconf _ _ => (.ok (), k)

def handle (k : LinuxKernel) : (request : HostCall) → request.Answer × LinuxKernel
  | .run command => k.execute command
  | .readSrcValidMark => (.ok k.srcValidMark, k)
  | .lookPath program => (decide (program ∈ k.programs), k)

/-- The kernel, as what surrounds a routine. -/
def around : Surroundings HostCall HostCall.Answer LinuxKernel where
  answers k request reply after := k.handle request = (reply, after)
  drifts _ _ := False

theorem quiet : around.Quiet := fun _ _ drifts => drifts

variable {α : Type} {k : LinuxKernel}

abbrev perform (k : LinuxKernel) (routine : HostRoutine α) : α × LinuxKernel :=
  routine.interpret handle k

end LinuxKernel

abbrev PreparedRoutes := PreparedCommandPeerRoutes LinuxCommand

/-- The methods of a transaction are called one after the other, whatever they
return. -/
def drive : List RouteMethod → PreparedRoutes → HostRoutine PreparedRoutes
  | [], p => return p
  | method :: rest, p => do
      let (_, p) ← method.on run p
      drive rest p

structure RouteTransaction where
  plan : PeerRoutePlan
  methods : List RouteMethod

/-- What a command does to the entries. -/
def entryChange : LinuxCommand → Option (RouteChange LinuxEntry)
  | .add entry => some (.add entry)
  | .delete entry => some (.delete entry)
  | _ => none

structure HostNetwork where
  kernel : LinuxKernel
  /-- What `ConfigureNetwork` or a committed transaction has ever installed. -/
  installed : Finset LinuxEntry
  /-- What is left of it, after the removals that were committed. -/
  current : Finset LinuxEntry

/-- A transaction that was refused, committed or rolled back. -/
def HostNetwork.transact (m : CommandPeerRouteManager LinuxCommand) (n : HostNetwork)
    (transaction : RouteTransaction) : Option HostNetwork :=
  match m.prepare transaction.plan with
  | .error _ => some n
  | .ok p =>
    let (p, kernel) := n.kernel.perform (drive transaction.methods p)
    let additions := (addedRoutes entryChange p.additions).toFinset
    if p.finalized then
      some
        { kernel
          installed := n.installed ∪ additions
          current := (n.current \ (addedRoutes entryChange p.removals).toFinset) ∪ additions }
    else if p.rolledBack then some { n with kernel }
    else none

/-- The host once `ConfigureNetwork` has made `configured` of the kernel. -/
def HostNetwork.start (kernel configured : LinuxKernel) : HostNetwork :=
  { kernel := configured
    installed := configured.entries \ kernel.entries
    current := configured.entries \ kernel.entries }

open LinuxKernel (around)

theorem execute_add (k : LinuxKernel) (entry : LinuxEntry) :
    (entry ∉ k.entries ∧ k.execute (.add entry) =
      (.ok (), { k with entries := insert entry k.entries })) ∨
    (∃ err, k.execute (.add entry) = (.error err, k)) := by
  by_cases present : entry ∈ k.entries
  · exact .inr ⟨_, if_pos present⟩
  · exact .inl ⟨present, if_neg present⟩

theorem execute_delete (k : LinuxKernel) (entry : LinuxEntry) :
    (entry ∈ k.entries ∧ k.execute (.delete entry) =
      (.ok (), { k with entries := k.entries.erase entry })) ∨
    (entry ∉ k.entries ∧ ∃ err, k.execute (.delete entry) = (.error err, k)) := by
  by_cases present : entry ∈ k.entries
  · exact .inl ⟨present, if_pos present⟩
  · exact .inr ⟨present, _, if_neg present⟩

/-- The kernel adds only what is missing and deletes only what is there. -/
def Possible : RouteChange LinuxEntry → Set LinuxEntry → Prop
  | .add entry, entries => entry ∉ entries
  | .delete entry, entries => entry ∈ entries

variable {command : LinuxCommand}

theorem execute_cases (k : LinuxKernel) {effect : RouteChange LinuxEntry}
    (changes : entryChange command = some effect) :
    (k.execute command).1 = .ok () ∧ Possible effect k.entries ∧
        ((k.execute command).2.entries : Set LinuxEntry) = effect.apply k.entries ∨
      (∃ err, (k.execute command).1 = .error err) ∧
        ((k.execute command).2.entries : Set LinuxEntry) = k.entries := by
  cases command with
  | add entry =>
    cases changes
    rcases execute_add k entry with ⟨absent, done⟩ | ⟨err, failed⟩
    · rw [done]
      exact .inl ⟨rfl, absent, Finset.coe_insert _ _⟩
    · rw [failed]
      exact .inr ⟨⟨err, rfl⟩, rfl⟩
  | delete entry =>
    cases changes
    rcases execute_delete k entry with ⟨present, done⟩ | ⟨_, err, failed⟩
    · rw [done]
      exact .inl ⟨rfl, present, Finset.coe_erase _ _⟩
    · rw [failed]
      exact .inr ⟨⟨err, rfl⟩, rfl⟩
  | _ => cases changes

variable {toRemove toAdd : List (HostOperation LinuxCommand)} {start : Set LinuxEntry}

theorem kernel_host
    (spelled : ∀ operation ∈ toRemove ++ toAdd, ∃ entry, Spells entryChange operation entry) :
    Host run around (fun _ => True) (fun k => (k.entries : Set LinuxEntry)) Possible entryChange
      start toRemove toAdd := by
  refine ⟨LinuxKernel.quiet, fun _ _ _ => trivial, spelled, ?_, ?_, ?_⟩
  · intro command effect pre changes _
    refine .ask LinuxKernel.quiet (fun _ _ => trivial) ?_
    intro k reply after before answered
    have result := execute_cases k changes
    rw [show k.execute command = (reply, after) from answered] at result
    exact ⟨k, before, result⟩
  · exact fun _ _ _ _ _ _ _ _ possible => possible
  · exact fun _ _ _ _ _ _ _ _ possible => possible

theorem drive_stands
    (spelled : ∀ operation ∈ toRemove ++ toAdd, ∃ entry, Spells entryChange operation entry)
    (methods : List RouteMethod) (p : PreparedRoutes) :
    Program.Triple around (fun _ => True)
      (fun k => Stands entryChange start toRemove toAdd p k.entries) (drive methods p)
      fun p k => Stands entryChange start toRemove toAdd p k.entries := by
  induction methods generalizing p with
  | nil => exact .pure LinuxKernel.quiet fun _ stands => stands
  | cons method rest ih =>
    refine .bind ?_ fun value => ih value.2
    exact fun k stands => (kernel_host spelled).keeps stands method

/-! ## A history of transactions -/

/-- The kernel answers as it surrounds. -/
theorem runs_perform {α : Type} (routine : HostRoutine α) (k : LinuxKernel) :
    routine.Runs around.answers k (k.perform routine).1 (k.perform routine).2 := by
  induction routine generalizing k with
  | done value => exact .done
  | call request next ih => exact .call rfl (ih _ _)

section History

variable {textLE : Prefix → Prefix → Bool} {name : Text} {cfg : NetworkConfig}
  {base : Finset LinuxEntry} {p : PreparedRoutes}

/-- A list of operations that each have an entry. -/
def OfEntries (operations : List (HostOperation LinuxCommand)) : Prop :=
  ∀ operation ∈ operations, ∃ entry, Spells entryChange operation entry

variable {operations : List (HostOperation LinuxCommand)}

theorem linuxRouteOperations_ofEntries
    (planned : linuxRouteOperations textLE name cfg = .ok operations) : OfEntries operations := by
  unfold linuxRouteOperations at planned
  cases found : routeEntries textLE name cfg with
  | error err =>
    rw [found] at planned
    cases planned
  | ok entries =>
    rw [found] at planned
    cases planned
    intro operation listed
    obtain ⟨entry, _, rfl⟩ := mem_map.mp listed
    exact ⟨entry, rfl, rfl⟩

theorem ofEntries_nil : OfEntries [] := fun _ listed => absurd listed not_mem_nil

theorem planAll_ofEntries {planner : Prefix → Except RouteError (List (HostOperation LinuxCommand))}
    (each : ∀ owned operations, planner owned = .ok operations → OfEntries operations)
    {prefixes : List Prefix}
    (planned : planAll planner prefixes = .ok operations) : OfEntries operations := by
  induction prefixes generalizing operations with
  | nil =>
    cases planned
    exact ofEntries_nil
  | cons owned rest ih =>
    unfold planAll at planned
    split at planned
    · cases planned
    next first planOne =>
    split at planned
    · cases planned
    next later planRest =>
    cases planned
    intro operation listed
    rcases mem_append.mp listed with listed | listed
    · exact each owned first planOne operation listed
    · exact ih planRest operation listed

def Planned (p : PreparedRoutes) : Prop :=
  ∃ removals additions, p = { removals, additions } ∧ OfEntries (removals ++ additions)

theorem prepare_planned {plan : PeerRoutePlan}
    (prepared : (newPeerRouteManager textLE name cfg).prepare plan = .ok p) : Planned p := by
  have each : ∀ owned operations,
      (newPeerRouteManager textLE name cfg).planner owned = .ok operations →
      OfEntries operations := fun _ _ planned => linuxRouteOperations_ofEntries planned
  unfold CommandPeerRouteManager.prepare at prepared
  split at prepared
  · cases prepared
  split at prepared
  · cases prepared
  split at prepared
  · cases prepared
  unfold CommandPeerRouteManager.planned at prepared
  split at prepared
  · cases prepared
    exact ⟨[], [], rfl, ofEntries_nil⟩
  split at prepared
  · cases prepared
  split at prepared
  · cases prepared
  next planRemovals =>
  split at prepared
  · cases prepared
  next planAdditions =>
  cases prepared
  refine ⟨_, _, rfl, ?_⟩
  intro operation listed
  rcases mem_append.mp listed with listed | listed
  · exact planAll_ofEntries each planRemovals operation listed
  · exact planAll_ofEntries each planAdditions operation listed

/-- The entries after a transaction that has ended. -/
theorem drive_ends (planned : Planned p) (methods : List RouteMethod) (k : LinuxKernel) :
    ((k.perform (drive methods p)).1.finalized = true → (k.perform (drive methods p)).2.entries =
      (k.entries \ (addedRoutes entryChange (k.perform (drive methods p)).1.removals).toFinset) ∪
        (addedRoutes entryChange (k.perform (drive methods p)).1.additions).toFinset) ∧
    ((k.perform (drive methods p)).1.rolledBack = true →
      (k.perform (drive methods p)).2.entries = k.entries) := by
  obtain ⟨removals, additions, rfl, spelled⟩ := planned
  have stands := (drive_stands spelled methods _).runs stands_start (runs_perform _ k)
  refine ⟨?_, ?_⟩
  · intro finalized
    obtain ⟨allRemoved, allAdded⟩ := stands.finalized finalized
    ext entry
    rw [← Finset.mem_coe, stands.routes_eq, notedRoutes, allRemoved, allAdded, stands.removals,
      stands.additions]
    simp
  · intro rolledBack
    obtain ⟨noneRemoved, noneAdded⟩ := stands.rolledBack rolledBack
    ext entry
    rw [← Finset.mem_coe, stands.routes_eq, notedRoutes, noneRemoved, noneAdded]
    simp

/-- Of what was ever installed, the kernel has what is current. -/
structure Tracks (startup : Finset LinuxEntry) (n : HostNetwork) : Prop where
  startup : startup ⊆ n.installed
  present : ∀ entry ∈ n.installed, entry ∈ n.kernel.entries ↔ entry ∈ n.current
  current : n.current ⊆ n.installed

theorem tracks_start (kernel configured : LinuxKernel) :
    Tracks (configured.entries \ kernel.entries) (HostNetwork.start kernel configured) := by
  refine ⟨fun _ member => member, ?_, fun _ member => member⟩
  intro entry installed
  have both := Finset.mem_sdiff.mp installed
  exact ⟨fun _ => installed, fun _ => both.1⟩

variable {n after : HostNetwork}

theorem Tracks.transact (tracks : Tracks base n) {transaction : RouteTransaction}
    (done : n.transact (newPeerRouteManager textLE name cfg) transaction = some after) :
    Tracks base after := by
  unfold HostNetwork.transact at done
  split at done
  · cases done
    exact tracks
  next p prepared =>
  obtain ⟨committed, undone⟩ := drive_ends (prepare_planned prepared) transaction.methods n.kernel
  dsimp only at done
  split at done
  · next finalized =>
    cases done
    have entries := committed finalized
    refine ⟨tracks.startup.trans Finset.subset_union_left, ?_, ?_⟩
    · intro entry installed
      rw [entries]
      simp only [Finset.mem_union, Finset.mem_sdiff] at installed ⊢
      by_cases added : entry ∈ (addedRoutes entryChange
          (n.kernel.perform (drive transaction.methods p)).1.additions).toFinset
      · exact ⟨fun _ => .inr added, fun _ => .inr added⟩
      · have known := tracks.present entry (installed.resolve_right added)
        rw [known]
    · intro entry member
      rcases Finset.mem_union.mp member with kept | added
      · exact Finset.mem_union_left _ (tracks.current (Finset.mem_sdiff.mp kept).1)
      · exact Finset.mem_union_right _ added
  · split at done
    · next rolledBack =>
      cases done
      refine ⟨tracks.startup, ?_, tracks.current⟩
      intro entry installed
      rw [undone rolledBack]
      exact tracks.present entry installed
    · cases done

theorem Tracks.history (tracks : Tracks base n) {history : List RouteTransaction}
    (done : history.foldlM (HostNetwork.transact (newPeerRouteManager textLE name cfg)) n =
      some after) : Tracks base after := by
  induction history generalizing n with
  | nil =>
    cases done
    exact tracks
  | cons transaction rest ih =>
    obtain ⟨next, first, later⟩ := Option.bind_eq_some_iff.mp done
    exact ih (tracks.transact first) later

end History

/-! ## Startup -/

section Startup

variable {textLE : Prefix → Prefix → Bool} {isAddress : Text → Bool} {name : Text}
  {cfg : NetworkConfig} {k : LinuxKernel}

/-- A command that concerns no entry. -/
def LinuxCommand.IsOther : LinuxCommand → Prop
  | .add _ | .delete _ => False
  | _ => True

theorem execute_other (other : command.IsOther) :
    (k.execute command).1 = .ok () ∧ (k.execute command).2.entries = k.entries := by
  cases command with
  | add | delete => cases other
  | addressAdd | linkUp | setSrcValidMark | resolvectl | resolvconf => exact ⟨rfl, rfl⟩

/-- A call that concerns no entry. -/
def HostCall.IsOther : HostCall → Prop
  | .run command => command.IsOther
  | _ => True

variable {α : Type} {routine : HostRoutine α} {post : α → Prop}

/-- A routine that makes no other calls leaves the entries alone. -/
theorem perform_other
    (yields : routine.Yields (fun _ _ => True) HostCall.IsOther post) (k : LinuxKernel) :
    post (k.perform routine).1 ∧ (k.perform routine).2.entries = k.entries := by
  induction routine generalizing k with
  | done value => exact ⟨yields, rfl⟩
  | call request next ih =>
    obtain ⟨other, rest⟩ := yields
    obtain ⟨holds, same⟩ := ih _ (rest (k.handle request).1 trivial) (k.handle request).2
    refine ⟨holds, same.trans ?_⟩
    cases request with
    | run command => exact (execute_other other).2
    | readSrcValidMark | lookPath => rfl

theorem runEach_yields {commands : List LinuxCommand}
    (others : ∀ command ∈ commands, command.IsOther) :
    (runEach commands).Yields (fun _ _ => True) HostCall.IsOther fun _ => True := by
  induction commands with
  | nil => trivial
  | cons command rest ih =>
    refine .ask_bind (others command mem_cons_self) ?_
    rintro (err | done) _
    · trivial
    · exact ih fun command listed => others command (mem_cons_of_mem _ listed)

/-- The undo commands grow by some that concern no entry. -/
def Grows (undo : List LinuxCommand) (result : Configured) : Prop :=
  ∃ extra, result.1 = undo ++ extra ∧ ∀ command ∈ extra, command.IsOther

theorem grows_same (undo : List LinuxCommand) (outcome : Except RouteError Unit) :
    Grows undo (undo, outcome) :=
  ⟨[], (append_nil undo).symm, nofun⟩

theorem grows_one (undo : List LinuxCommand) (outcome : Except RouteError Unit)
    (other : command.IsOther) :
    Grows undo (undo ++ [command], outcome) := by
  refine ⟨[command], rfl, ?_⟩
  intro listed member
  rw [mem_singleton.mp member]
  exact other

theorem configureSrcValidMark_yields (undo : List LinuxCommand) :
    (configureSrcValidMark textLE cfg undo).Yields (fun _ _ => True) HostCall.IsOther
      (Grows undo) := by
  unfold configureSrcValidMark
  split
  · exact grows_same undo _
  refine .ask_bind trivial ?_
  rintro (err | oldValue) _
  · exact grows_same undo _
  dsimp only
  split
  · exact grows_same undo _
  refine .ask_bind trivial ?_
  rintro (err | done) _
  · exact grows_same undo _
  · exact grows_one undo _ trivial

theorem resolvectlDomains_yields (domains : List Text) :
    (resolvectlDomains name domains).Yields (fun _ _ => True) HostCall.IsOther fun _ => True := by
  unfold resolvectlDomains
  split
  · trivial
  refine .ask_bind trivial ?_
  rintro (err | done) _
  · exact .ask_bind trivial fun _ _ => trivial
  · trivial

theorem configureLinuxDNS_yields (undo : List LinuxCommand) :
    (configureLinuxDNS isAddress name cfg undo).Yields (fun _ _ => True) HostCall.IsOther
      (Grows undo) := by
  unfold configureLinuxDNS
  split
  · exact grows_same undo _
  refine .ask_bind trivial ?_
  intro found _
  split
  · refine .bind (runEach_yields ?_) ?_
    · intro command listed
      split at listed
      · cases listed
      · rw [mem_singleton.mp listed]
        trivial
    rintro (err | done) _
    · exact grows_same undo _
    refine .bind (resolvectlDomains_yields _) ?_
    rintro (err | done) _
    · exact grows_same undo _
    · exact grows_one undo _ trivial
  refine .ask_bind trivial ?_
  intro found _
  split
  · refine .ask_bind trivial ?_
    rintro (err | done) _
    · exact grows_same undo _
    · exact grows_one undo _ trivial
  · exact grows_same undo _

structure Added (base : Finset LinuxEntry) (listed : List LinuxEntry)
    (entries : Finset LinuxEntry) : Prop where
  nodup : listed.Nodup
  fresh : ∀ entry ∈ listed, entry ∉ base
  result : entries = base ∪ listed.toFinset

variable {base : Finset LinuxEntry}

theorem Added.nil : Added base [] base := ⟨nodup_nil, nofun, by simp⟩

theorem Added.cons {base entries : Finset LinuxEntry} {entry : LinuxEntry}
    {listed : List LinuxEntry} (absent : entry ∉ base)
    (added : Added (insert entry base) listed entries) : Added base (entry :: listed) entries := by
  obtain ⟨nodup, fresh, rfl⟩ := added
  refine ⟨nodup_cons.mpr ⟨?_, nodup⟩, ?_, ?_⟩
  · exact fun member => fresh entry member (Finset.mem_insert_self _ _)
  · intro other member
    rcases mem_cons.mp member with rfl | member
    · exact absent
    · exact fun known => fresh other member (Finset.mem_insert_of_mem known)
  · rw [toFinset_cons, Finset.insert_union, Finset.union_insert]

theorem interpret_run (command : LinuxCommand) (k : LinuxKernel) :
    (run command).interpret LinuxKernel.handle k = k.execute command :=
  rfl

theorem perform_applyOperations (entries : List LinuxEntry) (undo : List LinuxCommand)
    (k : LinuxKernel)
    (worked : (k.perform (applyOperations (entries.map LinuxEntry.operation) undo)).1.2 = .ok ()) :
    (k.perform (applyOperations (entries.map LinuxEntry.operation) undo)).1.1 =
        undo ++ entries.map .delete ∧
      Added k.entries entries
        (k.perform (applyOperations (entries.map LinuxEntry.operation) undo)).2.entries := by
  induction entries generalizing undo k with
  | nil => exact ⟨(append_nil undo).symm, .nil⟩
  | cons entry rest ih =>
    rw [map_cons, applyOperations, LinuxKernel.perform, Program.interpret_bind,
      interpret_run, show entry.operation.apply = .add entry from rfl] at worked ⊢
    rcases execute_add k entry with ⟨absent, done⟩ | ⟨err, failed⟩
    · rw [done] at worked ⊢
      obtain ⟨undone, added⟩ := ih _ _ worked
      refine ⟨undone.trans ?_, .cons absent added⟩
      rw [append_assoc]
      rfl
    · rw [failed] at worked
      cases worked

theorem ensures_perform {post : α → LinuxKernel → Prop}
    (holds : post (k.perform routine).1 (k.perform routine).2) :
    routine.Ensures around.answers post k := by
  induction routine generalizing k with
  | done value => exact holds
  | call request next ih =>
    intro reply after answered
    obtain ⟨rfl, rfl⟩ := Prod.mk.inj (answered : k.handle request = (reply, after))
    exact ih _ holds

theorem ensures_other
    (yields : routine.Yields (fun _ _ => True) HostCall.IsOther post) (k : LinuxKernel) :
    routine.Ensures around.answers (fun value after => post value ∧ after.entries = k.entries) k :=
  ensures_perform (perform_other yields k)

theorem ensures_applyOperations (entries : List LinuxEntry) (undo : List LinuxCommand)
    (k : LinuxKernel) :
    (applyOperations (entries.map LinuxEntry.operation) undo).Ensures around.answers
      (fun result after => result.2 = .ok () → result.1 = undo ++ entries.map .delete ∧
        Added k.entries entries after.entries) k :=
  ensures_perform (perform_applyOperations entries undo k)

/-- How the undo commands take back what was added to `base`. -/
def Undoes (base : Finset LinuxEntry) (undo : List LinuxCommand) (entries : Finset LinuxEntry) :
    Prop :=
  ∃ listed extra, undo = listed.map .delete ++ extra ∧
    (∀ command ∈ extra, command.IsOther) ∧ Added base listed entries

theorem Undoes.grows {undo : List LinuxCommand} {result : Configured}
    (undoes : Undoes base undo k.entries) (grows : Grows undo result) {after : LinuxKernel}
    (same : after.entries = k.entries) : Undoes base result.1 after.entries := by
  obtain ⟨listed, extra, rfl, others, added⟩ := undoes
  obtain ⟨more, grown, othersToo⟩ := grows
  refine ⟨listed, extra ++ more, ?_, ?_, ?_⟩
  · rw [grown, append_assoc]
  · intro command member
    rcases mem_append.mp member with member | member
    · exact others command member
    · exact othersToo command member
  · rw [same]
    exact added

/-- What `ConfigureNetwork` has installed when it succeeds, and how it undoes it. -/
theorem configureNetwork_ensures (textLE : Prefix → Prefix → Bool) (isAddress : Text → Bool)
    (name : Text) (cfg : NetworkConfig) (k : LinuxKernel) :
    (configureNetwork textLE isAddress name cfg).Ensures around.answers
      (fun result after => result.2 = .ok () → Undoes k.entries result.1 after.entries) k := by
  have links : ∀ command ∈ cfg.addresses.map (.addressAdd · name) ++ [.linkUp name],
      LinuxCommand.IsOther command := by
    intro command listed
    rcases mem_append.mp listed with listed | listed
    · obtain ⟨_, _, rfl⟩ := mem_map.mp listed
      trivial
    · rw [mem_singleton.mp listed]
      trivial
  refine .bind (ensures_other (runEach_yields links) k) ?_
  rintro (err | done) first ⟨_, same⟩
  · nofun
  dsimp only
  split
  · nofun
  next operations planned =>
  obtain ⟨entries, rfl⟩ : ∃ entries : List LinuxEntry,
      operations = entries.map LinuxEntry.operation := by
    unfold linuxRouteOperations at planned
    cases found : routeEntries textLE name cfg with
    | error err =>
      rw [found] at planned
      cases planned
    | ok entries =>
      rw [found] at planned
      cases planned
      exact ⟨entries, rfl⟩
  refine .bind (ensures_applyOperations entries [] first) ?_
  rintro ⟨undo, err | done⟩ second installed
  · nofun
  obtain ⟨undone, added⟩ := installed rfl
  have undoes : Undoes k.entries undo second.entries :=
    ⟨entries, [], by simpa using undone, nofun, same ▸ added⟩
  refine .bind (ensures_other (configureSrcValidMark_yields undo) second) ?_
  rintro ⟨marked, err | done⟩ third ⟨grows, same⟩
  · nofun
  have undoes := undoes.grows grows same
  refine (ensures_other (configureLinuxDNS_yields marked) third).weaken ?_
  exact fun result after resolved _ => undoes.grows resolved.1 resolved.2

end Startup

/-! ## The cleanup -/

section Cleanup

variable {k : LinuxKernel}

theorem perform_runUndo_others {commands : List LinuxCommand}
    (others : ∀ command ∈ commands, command.IsOther) (rest : List LinuxCommand) (k : LinuxKernel) :
    ∃ after : LinuxKernel, after.entries = k.entries ∧
      k.perform (runUndo (commands ++ rest)) = after.perform (runUndo rest) := by
  induction commands generalizing k with
  | nil => exact ⟨k, rfl, rfl⟩
  | cons command commands ih =>
    obtain ⟨done, same⟩ := execute_other (k := k) (others command mem_cons_self)
    obtain ⟨after, kept, performed⟩ := ih
      (fun command listed => others command (mem_cons_of_mem _ listed))
      (k.execute command).2
    refine ⟨after, kept.trans same, ?_⟩
    rw [cons_append, runUndo, LinuxKernel.perform, Program.interpret_bind, interpret_run, done]
    exact performed

/-- Entries are deleted whether or not others could be; there is an error for each that
was missing. -/
theorem perform_runUndo_deletes {listed : List LinuxEntry} (nodup : listed.Nodup)
    (k : LinuxKernel) :
    ((k.perform (runUndo (listed.map .delete))).1 = [] ↔ ∀ entry ∈ listed, entry ∈ k.entries) ∧
    (k.perform (runUndo (listed.map .delete))).2.entries = k.entries \ listed.toFinset := by
  induction listed generalizing k with
  | nil =>
    refine ⟨⟨fun _ => nofun, fun _ => rfl⟩, ?_⟩
    rw [toFinset_nil, Finset.sdiff_empty]
    rfl
  | cons entry rest ih =>
    obtain ⟨absent, nodup⟩ := nodup_cons.mp nodup
    rw [map_cons, runUndo, LinuxKernel.perform, Program.interpret_bind, interpret_run]
    rcases execute_delete k entry with ⟨present, done⟩ | ⟨missing, err, failed⟩
    · rw [done]
      obtain ⟨quiet, left⟩ := ih nodup { k with entries := k.entries.erase entry }
      refine ⟨quiet.trans ?_, left.trans ?_⟩
      · simp only [Finset.mem_erase, mem_cons, forall_eq_or_imp]
        constructor
        · exact fun each => ⟨present, fun other member => (each other member).2⟩
        · rintro ⟨_, each⟩ other member
          exact ⟨fun same => absent (same ▸ member), each other member⟩
      · ext other
        simp only [Finset.mem_sdiff, Finset.mem_erase, mem_toFinset, mem_cons]
        tauto
    · rw [failed]
      obtain ⟨_, left⟩ := ih nodup k
      rw [Program.interpret_bind]
      refine ⟨⟨nofun, fun each => absurd (each entry mem_cons_self) missing⟩, left.trans ?_⟩
      ext other
      simp only [Finset.mem_sdiff, mem_toFinset, mem_cons, not_or]
      constructor
      · rintro ⟨known, other⟩
        refine ⟨known, ?_, other⟩
        rintro rfl
        exact missing known
      · exact fun ⟨known, _, other⟩ => ⟨known, other⟩

theorem perform_cleanup {base entries : Finset LinuxEntry} {undo : List LinuxCommand}
    (undoes : Undoes base undo entries) (k : LinuxKernel) :
    ((k.perform (cleanup undo)).1 = [] ↔ entries \ base ⊆ k.entries) ∧
      (k.perform (cleanup undo)).2.entries = k.entries \ (entries \ base) := by
  obtain ⟨listed, extra, rfl, others, nodup, fresh, rfl⟩ := undoes
  have installed : (base ∪ listed.toFinset) \ base = listed.toFinset := by
    rw [Finset.union_sdiff_left, Finset.sdiff_eq_self_iff_disjoint, Finset.disjoint_left]
    intro entry member
    exact fresh entry (mem_toFinset.mp member)
  have harmless : ∀ command ∈ extra.reverse, command.IsOther :=
    fun command member => others command (mem_reverse.mp member)
  obtain ⟨after, same, performed⟩ := perform_runUndo_others harmless
    (listed.map LinuxCommand.delete).reverse k
  obtain ⟨quiet, left⟩ := perform_runUndo_deletes (nodup_reverse.mpr nodup) after
  rw [cleanup, reverse_append, performed, ← map_reverse, installed, quiet, left, same]
  refine ⟨?_, ?_⟩
  · simp only [mem_reverse]
    exact ⟨fun each entry member => each entry (mem_toFinset.mp member),
      fun subset entry member => subset (mem_toFinset.mpr member)⟩
  · rw [toFinset_reverse]

/-- A shutdown after any history of transactions: the cleanup returns `nil` and leaves
nothing, exactly if the transactions together have left the routes as they were. -/
theorem shutdown_clean_iff (textLE : Prefix → Prefix → Bool) (isAddress : Text → Bool)
    {name : Text} {cfg : NetworkConfig} {kernel configured : LinuxKernel}
    {undo : List LinuxCommand} {history : List RouteTransaction} {final : HostNetwork}
    (succeeded : kernel.perform (configureNetwork textLE isAddress name cfg) =
      ((undo, .ok ()), configured))
    (ran : history.foldlM (HostNetwork.transact (newPeerRouteManager textLE name cfg))
      (HostNetwork.start kernel configured) = some final) :
    ((final.kernel.perform (cleanup undo)).1 = [] ∧
      ∀ entry ∈ final.installed, entry ∉ (final.kernel.perform (cleanup undo)).2.entries) ↔
    final.current = configured.entries \ kernel.entries := by
  have undoes := (configureNetwork_ensures textLE isAddress name cfg kernel).runs
    (runs_perform _ kernel)
  rw [succeeded] at undoes
  have tracks := (tracks_start kernel configured).history ran
  obtain ⟨quiet, left⟩ := perform_cleanup (undoes rfl) final.kernel
  rw [quiet, left]
  constructor
  · rintro ⟨still, none⟩
    ext entry
    constructor
    · intro current
      by_contra other
      have installed := tracks.current current
      exact none entry installed
        (Finset.mem_sdiff.mpr ⟨(tracks.present entry installed).mpr current, other⟩)
    · intro startup
      exact (tracks.present entry (tracks.startup startup)).mp (still startup)
  · intro same
    refine ⟨?_, ?_⟩
    · intro entry startup
      refine (tracks.present entry (tracks.startup startup)).mpr ?_
      rw [same]
      exact startup
    · intro entry installed remaining
      obtain ⟨present, other⟩ := Finset.mem_sdiff.mp remaining
      have current := (tracks.present entry installed).mp present
      rw [same] at current
      exact other current

/-- One peer, reached through the main table. -/
def lanConfig : NetworkConfig :=
  { allowedIPs := [[⟨.v4 0x0a000100#32, 24⟩]] }

def removeLan : RouteTransaction :=
  { plan := { transactionID := "1".toList, removals := [⟨.v4 0x0a000100#32, 24⟩] }
    methods := [.commitRemovals, .commitAdditions, .finalize] }

def restoreLan : RouteTransaction :=
  { plan := { transactionID := "2".toList, additions := [⟨.v4 0x0a000100#32, 24⟩] }
    methods := [.commitRemovals, .commitAdditions, .finalize] }

abbrev lanStarted : (List LinuxCommand × Except RouteError Unit) × LinuxKernel :=
  ({} : LinuxKernel).perform
    (configureNetwork (fun _ _ => true) (fun _ => true) "wg0".toList lanConfig)

abbrev lanAfter (history : List RouteTransaction) : Option HostNetwork :=
  history.foldlM
    (HostNetwork.transact (newPeerRouteManager (fun _ _ => true) "wg0".toList lanConfig))
    (HostNetwork.start {} lanStarted.2)

/-- A route that a transaction has removed is deleted again by the cleanup, which fails. -/
theorem cleanup_fails_after_removal : lanStarted.1.2.isOk ∧
      ∃ final, lanAfter [removeLan] = some final ∧
        (final.kernel.perform (cleanup lanStarted.1.1)).1 ≠ [] := by
  refine ⟨by decide +kernel, (lanAfter [removeLan]).get (by decide +kernel),
    (Option.some_get _).symm, by decide +kernel⟩

theorem cleanup_after_restoring : ∃ final, lanAfter [removeLan, restoreLan] = some final ∧
      (final.kernel.perform (cleanup lanStarted.1.1)).1 = [] ∧
      ∀ entry ∈ final.installed,
        entry ∉ (final.kernel.perform (cleanup lanStarted.1.1)).2.entries := by
  have succeeded : lanStarted = ((lanStarted.1.1, .ok ()), lanStarted.2) := by
    refine Prod.ext (Prod.ext rfl ?_) rfl
    decide +kernel
  refine ⟨(lanAfter [removeLan, restoreLan]).get (by decide +kernel), (Option.some_get _).symm, ?_⟩
  refine (shutdown_clean_iff _ _ succeeded (Option.some_get _).symm).mpr ?_
  decide +kernel

end Cleanup

end WgQuic.Platform
