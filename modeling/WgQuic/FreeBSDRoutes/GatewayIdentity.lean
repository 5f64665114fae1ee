import WgQuic.FreeBSDRoutes.Recovery
import WgQuic.Lib.Triple

/-!
# The identity of a gateway

A record may name a gateway or an interface, not both.  The default route
usually comes with both, and then no route can be acquired; and a route that
goes through a gateway is reported with both, so that recovery never recognizes
it.
-/

namespace WgQuic.FreeBSDRoutes

open List Net Leaser Program World
open WgQuic.Configuration (Text)
open Canonical (byteLength isUnspecified)
open Platform (EndpointRouteLedger EndpointRouteLedgerRecord SoundRecords
  validateEndpointRouteLedger validateEndpointRouteLedger_eq_none endpointRouteLedgerSchemaVersion
  maxEndpointRouteLedgerRecords endpointRouteStates endpointRoutePendingAdd endpointRouteActive
  endpointRoutePendingDelete)

section Saving

variable {World : Type} {reply : World → (request : Call) → request.Answer × World}

/-- The ledger that is written when there are these records. -/
def Leaser.nextLedger (m : Leaser) : EndpointRouteLedger :=
  { m.ledger with
    schemaVersion := endpointRouteLedgerSchemaVersion
    generation := (m.ledger.generation + 1) % 2 ^ 64 }

theorem saveLedgerLocked_sound {m : Leaser} (journaled : m.journaled = true)
    (sound : SoundRecords m.ledger.records) (world : World) :
    m.saveLedgerLocked.interpret reply world =
      (((reply world (.writeLedger m.nextLedger)).1, { m with ledger := m.nextLedger }),
        (reply world (.writeLedger m.nextLedger)).2) := by
  have accepted : validateEndpointRouteLedger m.nextLedger = none :=
    validateEndpointRouteLedger_eq_none.mpr ⟨rfl, sound⟩
  rw [Leaser.nextLedger] at accepted
  rw [saveLedgerLocked, if_neg (by simp [journaled])]
  simp only [accepted]
  rfl

theorem saveLedgerLocked_unsound {m : Leaser} (journaled : m.journaled = true)
    (unsound : ¬SoundRecords m.ledger.records) (world : World) :
    ∃ err, m.saveLedgerLocked.interpret reply world =
      ((.error err, { m with ledger := m.nextLedger }), world) := by
  rw [saveLedgerLocked, if_neg (by simp [journaled])]
  cases checked : validateEndpointRouteLedger m.nextLedger with
  | none => exact absurd (validateEndpointRouteLedger_eq_none.mp checked).2 unsound
  | some err =>
    rw [Leaser.nextLedger] at checked
    simp only [checked]
    exact ⟨err, rfl⟩

end Saving

/-! ## Acquiring a route -/

/-- Commands and saves work, and `route -n get` prints this for the default routes. -/
def World.working (output : Bool → Text) (world : World) : (request : Call) → request.Answer × World
  | .defaultGateway ipv6 => (freeBSDDefaultGateway ipv6 (output ipv6), world)
  | .writeLedger ledger => (Except.ok (), world.write ledger)
  | .execute command => (Except.ok (), command.apply world)
  | .loadLedger =>
    (Except.ok (world.saved.getD { schemaVersion := endpointRouteLedgerSchemaVersion }), world)
  | .queryRoute _ => (Except.error "not in table", world)

def Leaser.activeRecord (m : Leaser) (address : Addr) (gateway : Gateway) :
    EndpointRouteLedgerRecord :=
  { m.pendingRecord address gateway with state := endpointRouteActive }

section Acquire

variable {m : Leaser} {address : Addr} {gateway : Gateway} {output : Bool → Text} {world : World}

theorem interpret_getDefaultGateway {ipv6 : Bool} :
    (getDefaultGateway ipv6).interpret (working output) world =
      (freeBSDDefaultGateway ipv6 (output ipv6), world) :=
  rfl

theorem interpret_execute {command : RouteCommand} :
    (execute command).interpret (working output) world = (.ok (), command.apply world) :=
  rfl

/-- The leaser with the record of a route that is about to be added. -/
def Leaser.announced (m : Leaser) (address : Addr) (gateway : Gateway) : Leaser :=
  m.setRecords (m.ledger.records ++ [m.pendingRecord address gateway])

theorem journalAdd_sound (journaled : m.journaled = true)
    (sound : SoundRecords (m.announced address gateway).ledger.records) :
    (m.journalAdd address gateway).interpret (working output) world =
      ((.ok (), { m.announced address gateway with
        ledger := (m.announced address gateway).nextLedger }),
        world.write (m.announced address gateway).nextLedger) := by
  have saved := @saveLedgerLocked_sound _ (working output) (m.announced address gateway)
    journaled sound world
  rw [journalAdd, if_neg (by simp [journaled]), interpret_bind,
    show (m.setRecords (m.ledger.records ++ [m.pendingRecord address gateway])) =
      m.announced address gateway from rfl, saved]
  rfl

theorem journalAdd_unsound (journaled : m.journaled = true)
    (unsound : ¬SoundRecords (m.announced address gateway).ledger.records) :
    ∃ err leaser, (m.journalAdd address gateway).interpret (working output) world =
      ((.error err, leaser), world) := by
  obtain ⟨err, saved⟩ := @saveLedgerLocked_unsound _ (working output)
    (m.announced address gateway) journaled unsound world
  refine ⟨err, ?_⟩
  rw [journalAdd, if_neg (by simp [journaled]), interpret_bind,
    show (m.setRecords (m.ledger.records ++ [m.pendingRecord address gateway])) =
      m.announced address gateway from rfl, saved]
  exact ⟨_, rfl⟩

theorem addRoute_unsound (journaled : m.journaled = true)
    (found : freeBSDDefaultGateway (!address.is4) (output !address.is4) = .ok gateway)
    (unsound : ¬SoundRecords (m.announced address gateway).ledger.records) :
    ∃ err leaser, (m.addRoute address).interpret (working output) world =
      ((.failed err, leaser), world) := by
  obtain ⟨err, leaser, journal⟩ :=
    @journalAdd_unsound m address gateway output world journaled unsound
  refine ⟨err, leaser, ?_⟩
  simp only [addRoute, interpret_bind, interpret_getDefaultGateway, found, journal, interpret_pure]

theorem markActive_appended
    (sound : SoundRecords (m.ledger.records ++ [m.pendingRecord address gateway])) {after : Leaser}
    (name : after.name = m.name)
    (records : after.ledger.records = m.ledger.records ++ [m.pendingRecord address gateway]) :
    (after.markActive address).journaled = after.journaled ∧
      (after.markActive address).ledger.records =
        m.ledger.records ++ [m.activeRecord address gateway] := by
  have keys := sound.keys
  rw [map_append, nodup_append] at keys
  have absent : (m.ledger.records.findIdx? fun record =>
      decide (record.interface = m.name ∧ record.address = address.text)) = none := by
    refine findIdx?_eq_none_iff.mpr fun record member => decide_eq_false fun same => ?_
    refine keys.2.2 record.key (mem_map_of_mem member)
      (m.pendingRecord address gateway).key (mem_singleton_self _) ?_
    rw [EndpointRouteLedgerRecord.key, same.1, same.2]
    rfl
  -- The record that was just appended is the one that is found.
  have found : after.ledgerRecordIndexLocked address = some m.ledger.records.length := by
    rw [ledgerRecordIndexLocked, records, name, findIdx?_append, absent]
    simp [pendingRecord]
  rw [markActive, found]
  refine ⟨rfl, ?_⟩
  change after.ledger.records.modify _ _ = _
  rw [records, modify_eq_take_cons_drop (by simp)]
  simp [activeRecord]

theorem addRoute_sound (journaled : m.journaled = true)
    (found : freeBSDDefaultGateway (!address.is4) (output !address.is4) = .ok gateway)
    (sound : SoundRecords (m.announced address gateway).ledger.records) :
    ∃ leaser after ledger, (m.addRoute address).interpret (working output) world =
        ((.lease address, leaser), after) ∧
      after.saved = some ledger ∧ m.activeRecord address gateway ∈ ledger.records := by
  have journal := @journalAdd_sound m address gateway output world journaled sound
  simp only [addRoute, interpret_bind, interpret_getDefaultGateway, found, journal,
    interpret_execute]
  have sound' : SoundRecords (m.ledger.records ++ [m.pendingRecord address gateway]) := sound
  obtain ⟨kept, records⟩ := @markActive_appended m address gateway sound'
    { m.announced address gateway with ledger := (m.announced address gateway).nextLedger } rfl rfl
  have saved := @saveLedgerLocked_sound _ (working output) _ (kept.trans journaled)
    (records ▸ sound'.setState (by simp [endpointRouteStates]))
    ((RouteCommand.add address gateway).apply
      (world.write (m.announced address gateway).nextLedger))
  rw [confirm, if_neg (by simp [announced, setRecords, journaled]), interpret_bind, saved]
  refine ⟨_, _, _, rfl, if_neg ?_, ?_⟩
  · rw [nextLedger, records]
    simp
  · rw [nextLedger, records]
    simp

/-- A gateway and a ledger with which a route to the address can be recorded. -/
structure Leaser.Journals (m : Leaser) (address : Addr) (gateway : Gateway) : Prop where
  identity : gateway.address = [] ↔ gateway.interfaceName ≠ []
  readable : gateway.address ≠ [] →
    ∃ value, parseAddr gateway.address = some value ∧ isUnspecified value = false
  specified : isUnspecified address = false
  named : m.name ≠ []
  short : byteLength m.name ≤ 128
  ledger : SoundRecords m.ledger.records
  room : m.ledger.records.length < maxEndpointRouteLedgerRecords
  fresh : ∀ record ∈ m.ledger.records, record.key ≠ m.name ++ Char.ofNat 0 :: address.text

theorem announced_sound (unmapped : address.unmap = address) :
    SoundRecords (m.announced address gateway).ledger.records ↔ m.Journals address gateway := by
  constructor
  · intro sound
    have few := sound.few
    have keys := sound.keys
    obtain ⟨older, last⟩ := forall_mem_append.mp sound.sound
    obtain ⟨named, short, ⟨value, parsed, specified, -⟩, identity, readable, -⟩ :=
      last _ (mem_singleton_self _)
    cases (parseAddr_text address).symm.trans parsed
    change (m.ledger.records ++ [_]).length ≤ _ at few
    rw [length_append] at few
    change ((m.ledger.records ++ [_]).map _).Nodup at keys
    rw [map_append] at keys
    obtain ⟨oldKeys, -, apart⟩ := nodup_append.mp keys
    refine ⟨identity, readable, specified, named, short, ⟨by omega, older, oldKeys⟩, few, ?_⟩
    exact fun record member => apart _ (mem_map_of_mem member) _ (mem_singleton_self _)
  · rintro ⟨identity, readable, specified, named, short, ledger, room, fresh⟩
    constructor
    · change (m.ledger.records ++ [_]).length ≤ _
      rw [length_append]
      exact room
    · refine forall_mem_append.mpr ⟨ledger.sound, ?_⟩
      rintro _ (_ | ⟨_, ⟨⟩⟩)
      exact ⟨named, short, ⟨address, parseAddr_text address, specified, unmapped⟩, identity,
        readable, by simp [pendingRecord, endpointRouteStates]⟩
    · change ((m.ledger.records ++ [_]).map _).Nodup
      rw [map_append]
      refine nodup_append.mpr ⟨ledger.keys, nodup_singleton _, ?_⟩
      rintro key old _ new rfl
      obtain ⟨record, member, rfl⟩ := mem_map.mp old
      exact fresh record member (mem_singleton.mp new)

end Acquire

/-! ## Recovering from a crash -/

/-- What a crash has left: the ledger, and what `route -n get` prints for an address.
Once the host route of an address is deleted, `beneath` is printed for it. -/
structure Crashed where
  saved : EndpointRouteLedger
  table : Addr → Except String Text
  beneath : Addr → Except String Text
  deleted : List Addr := []

/-- Commands and saves work. -/
def Crashed.reply (host : Crashed) : (request : Call) → request.Answer × Crashed
  | .defaultGateway _ => (Except.error "not in table", host)
  | .writeLedger ledger => (Except.ok (), { host with saved := ledger })
  | .execute (.add _ _) => (Except.ok (), host)
  | .execute (.delete address) =>
    (Except.ok (), { host with
        table := Function.update host.table address (host.beneath address)
        deleted := host.deleted ++ [address] })
  | .loadLedger => (Except.ok host.saved, host)
  | .queryRoute address => (host.table address, host)

/-- What `route -n get` reports of an address. -/
def reported (table : Addr → Except String Text) (address : Addr) : Option Gateway :=
  (table address).toOption.map parseFreeBSDGateway

def recognized (name : Text) (table : Addr → Except String Text)
    (record : EndpointRouteLedgerRecord) : Bool :=
  record.interface = name ∧ record.state ≠ endpointRoutePendingAdd ∧
    reported table (destination record) = some (identity record)

/-- A record is recognized that leads to the address. -/
def Recognizes (name : Text) (table : Addr → Except String Text)
    (records : List EndpointRouteLedgerRecord) (address : Addr) : Prop :=
  ∃ record ∈ records, recognized name table record = true ∧ destination record = address

section Recover

variable {m : Leaser} {name : Text} {host : Crashed} {record : EndpointRouteLedgerRecord}
  {kept rest : List EndpointRouteLedgerRecord}

theorem interpret_inspectRoute {address : Addr}
    (answered : ∀ err, host.table address = .error err → mentionsMissing err = true) :
    (inspectRoute address).interpret Crashed.reply host =
      (.ok (reported host.table address), host) := by
  have asked : (queryRoute address).interpret Crashed.reply host = (host.table address, host) := rfl
  rw [inspectRoute, interpret_bind, asked, reported]
  cases found : host.table address with
  | error err =>
    simp only [answered err found, if_true]
    rfl
  | ok output => rfl

theorem setRecords_saved {records : List EndpointRouteLedgerRecord} (journaled : m.journaled = true)
    (sound : SoundRecords records) :
    ∃ leaser ledger, (m.setRecords records).saveLedgerLocked.interpret Crashed.reply host =
        ((.ok (), leaser), { host with saved := ledger }) ∧
      leaser.journaled = true ∧ leaser.name = m.name :=
  ⟨_, _, @saveLedgerLocked_sound _ _ (m.setRecords records) journaled sound host, journaled, rfl⟩

theorem recognizes_cons {table : Addr → Except String Text} {address : Addr} :
    Recognizes name table (record :: rest) address ↔
      (recognized name table record = true ∧ destination record = address) ∨
        Recognizes name table rest address :=
  exists_mem_cons_iff _ _ _

theorem recognizes_congr {before after : Addr → Except String Text} {address : Addr}
    (same : after address = before address) :
    Recognizes name after rest address ↔ Recognizes name before rest address := by
  refine exists_congr fun record => and_congr_right fun _ => and_congr_left ?_
  rintro rfl
  rw [recognized, recognized, reported, reported, same]

/-- A route that cannot be found is said to be missing. -/
def Crashed.Answers (host : Crashed) : Prop :=
  ∀ address err, host.table address = .error err ∨ host.beneath address = .error err →
    mentionsMissing err = true

/-- The host once the route of the address is deleted. -/
def Crashed.without (host : Crashed) (address : Addr) : Crashed :=
  { host with
    table := Function.update host.table address (host.beneath address)
    deleted := host.deleted ++ [address] }

theorem Crashed.Answers.without (answered : host.Answers) (address : Addr) :
    (host.without address).Answers := by
  intro other err failed
  dsimp only [Crashed.without] at failed
  by_cases same : other = address
  · rw [same, Function.update_self] at failed
    exact answered address err (.inr (failed.elim id id))
  · rw [Function.update_of_ne same] at failed
    exact answered other err failed

/-- The loop ends well, and the routes that it has deleted are those it recognizes. -/
def Recovers (name : Text) (host : Crashed) (records : List EndpointRouteLedgerRecord)
    (outcome : (Except String Unit × Leaser) × Crashed) : Prop :=
  ∃ leaser after, outcome = ((.ok (), leaser), after) ∧
    ∀ address, address ∈ after.deleted ↔
      address ∈ host.deleted ∨ Recognizes name host.table records address

variable {outcome : (Except String Unit × Leaser) × Crashed}

theorem Recovers.skip (unknown : recognized name host.table record = false)
    (recovers : Recovers name host rest outcome) :
    Recovers name host (record :: rest) outcome := by
  simpa only [Recovers, recognizes_cons, unknown, Bool.false_eq_true, false_and, false_or]
    using recovers

theorem Recovers.delete (known : recognized name host.table record = true)
    (recovers : Recovers name (host.without (destination record)) rest outcome) :
    Recovers name host (record :: rest) outcome := by
  obtain ⟨leaser, after, ended, gone⟩ := recovers
  refine ⟨leaser, after, ended, fun address => (gone address).trans ?_⟩
  rw [Crashed.without, mem_append, mem_singleton, or_assoc, recognizes_cons]
  refine or_congr_right ?_
  by_cases same : address = destination record
  · exact iff_of_true (.inl same) (.inl ⟨known, same.symm⟩)
  · rw [recognizes_congr (Function.update_of_ne same _ _)]
    simp [same, Ne.symm same]

/-- The loop goes on without a record once the shorter ledger is saved. -/
theorem recovers_recoverRecords (journaled : m.journaled = true)
    (sound : SoundRecords (kept ++ rest)) (answered : host.Answers) :
    Recovers m.name host rest ((m.recoverRecords kept rest).interpret Crashed.reply host) := by
  induction rest generalizing m kept host with
  | nil => exact ⟨m, host, rfl, by simp [Recognizes]⟩
  | cons record rest ih =>
    rw [recoverRecords]
    split
    · next foreign =>
      exact .skip (by simp [recognized, foreign]) (ih journaled (by simpa using sound) answered)
    next own =>
    rw [not_not] at own
    have remaining : SoundRecords (kept ++ rest) :=
      sound.sublist ((List.Sublist.refl kept).append (sublist_cons_self record rest))
    split
    · next pending =>
      obtain ⟨leaser, ledger, saved, journaled', name⟩ :=
        @setRecords_saved m.retain host (kept ++ rest) journaled remaining
      rw [interpret_bind, saved]
      refine .skip (by simp [recognized, pending]) ?_
      exact name ▸ @ih leaser { host with saved := ledger } kept journaled' remaining answered
    next settled =>
    rw [interpret_bind, interpret_inspectRoute fun err failed => answered _ err (.inl failed)]
    dsimp only
    split
    · next matched =>
      have deleting : endpointRoutePendingDelete ∈ endpointRouteStates := by
        simp [endpointRouteStates]
      obtain ⟨leaser, ledger, saved, journaled', name⟩ :=
        @setRecords_saved m host _ journaled (sound.setState deleting)
      obtain ⟨later, ledger', saved', laterJournaled, laterName⟩ := @setRecords_saved leaser
        { host.without (destination record) with saved := ledger } _ journaled' remaining
      rw [interpret_bind, saved, interpret_bind]
      dsimp only [execute, ask, interpret, Crashed.reply]
      dsimp only [Crashed.without] at saved'
      rw [interpret_bind, saved']
      refine .delete (by simp [recognized, own, settled, matched]) ?_
      exact laterName.trans name ▸ @ih later { host.without (destination record) with
        saved := ledger' } kept laterJournaled remaining (answered.without _)
    · next different =>
      obtain ⟨leaser, ledger, saved, journaled', name⟩ :=
        @setRecords_saved m host (kept ++ rest) journaled remaining
      rw [interpret_bind, saved]
      refine .skip (by simp [recognized, different]) ?_
      exact name ▸ @ih leaser { host with saved := ledger } kept journaled' remaining answered

end Recover

/-! ## The gateway that a route was created through -/

/-- What `route -n get` prints for a route that was created for a record: a route through a
gateway has a gateway line and an interface line. -/
structure CreatedThrough (record : EndpointRouteLedgerRecord) (created : Gateway) : Prop where
  gateway : record.gateway ≠ [] → created.address = record.gateway ∧ created.interfaceName ≠ []
  interface : record.gateway = [] → created = { interfaceName := record.gatewayInterface }

/-- The route still goes where it was created. -/
def Stands (name : Text) (table : Addr → Except String Text)
    (created : Addr → Gateway) (record : EndpointRouteLedgerRecord) : Prop :=
  record.interface = name ∧ record.state ≠ endpointRoutePendingAdd ∧
    reported table (destination record) = some (created (destination record))

section Identity

variable {name : Text} {table : Addr → Except String Text} {created : Addr → Gateway}
  {record : EndpointRouteLedgerRecord}

theorem not_recognized (sound : record.Sound) (routed : record.gateway ≠ [])
    (both : ∀ gateway, reported table (destination record) = some gateway →
      gateway.address ≠ [] → gateway.interfaceName ≠ []) :
    recognized name table record = false := by
  refine decide_eq_false ?_
  rintro ⟨-, -, found⟩
  have unnamed : record.gatewayInterface = [] := by
    by_contra named
    exact routed (sound.identity.mpr named)
  exact both _ found routed unnamed

variable {records : List EndpointRouteLedgerRecord}

/-- The routes that stand are those that are recognized, unless one goes through a gateway. -/
theorem recognized_exactly_iff (sound : SoundRecords records)
    (through : ∀ record ∈ records, record.interface = name →
      record.state ≠ endpointRoutePendingAdd →
      CreatedThrough record (created (destination record)))
    (both : ∀ address gateway, reported table address = some gateway →
      gateway.address ≠ [] → gateway.interfaceName ≠ []) :
    (∀ address, Recognizes name table records address ↔
      ∃ record ∈ records, Stands name table created record ∧ destination record = address) ↔
    ∀ record ∈ records, Stands name table created record → record.gateway = [] := by
  constructor
  · intro exactly record member stands
    by_contra routed
    obtain ⟨other, otherMember, known, same⟩ :=
      (exactly (destination record)).mpr ⟨record, member, stands, rfl⟩
    obtain ⟨otherOwn, otherSettled, -⟩ := of_decide_eq_true known
    have otherThrough := through other otherMember otherOwn otherSettled
    rw [same] at otherThrough
    -- The route was created through a gateway, for the other record too.
    have otherRouted : other.gateway ≠ [] := by
      intro unrouted
      have gateway := ((through record member stands.1 stands.2.1).gateway routed).1
      rw [otherThrough.interface unrouted] at gateway
      exact routed gateway.symm
    have unknown := @not_recognized name table other (sound.sound other otherMember) otherRouted
      (both _)
    rw [unknown] at known
    cases known
  · intro unrouted address
    refine exists_congr fun record => and_congr_right fun member => and_congr_left fun _ => ?_
    by_cases routed : record.gateway = []
    · rw [recognized, decide_eq_true_iff, Stands]
      by_cases own : record.interface = name ∧ record.state ≠ endpointRoutePendingAdd
      · rw [(through record member own.1 own.2).interface routed, identity, routed]
      · tauto
    · have unknown := @not_recognized name table record (sound.sound record member) routed (both _)
      rw [unknown]
      exact ⟨nofun, fun stands => absurd (unrouted record member stands) routed⟩

end Identity

/-- When a route can be acquired, and when recovery deletes the routes that still stand. -/
theorem gateway_identity (m : Leaser) :
    (∀ (address : Addr) (gateway : Gateway) (output : Bool → Text) (world : World),
      m.journaled = true → m.closed = false →
      (if address.unmap.is4 then m.need4 = true else m.need6 = true) →
      m.entries.lookup address.unmap = none →
      freeBSDDefaultGateway (!address.unmap.is4) (output !address.unmap.is4) = .ok gateway →
      ((((m.acquireEndpointRoute (some address)).interpret (working output) world).1.1 =
            .lease address.unmap ∧ ∃ ledger, ((m.acquireEndpointRoute (some address)).interpret
              (working output) world).2.saved = some ledger ∧
            m.activeRecord address.unmap gateway ∈ ledger.records) ↔
        m.Journals address.unmap gateway)) ∧
    (∀ (host : Crashed) (created : Addr → Gateway),
      m.journaled = true → host.deleted = [] → validateEndpointRouteLedger host.saved = none →
      (∀ record ∈ host.saved.records, record.interface = m.name →
        record.state ≠ endpointRoutePendingAdd →
          CreatedThrough record (created (destination record))) →
      (∀ address err, host.table address = .error err ∨ host.beneath address = .error err →
        mentionsMissing err = true) →
      (∀ address gateway, reported host.table address = some gateway →
        gateway.address ≠ [] → gateway.interfaceName ≠ []) →
      ∃ leaser after, m.recover.interpret Crashed.reply host = ((.ok (), leaser), after) ∧
        ((∀ address, address ∈ after.deleted ↔ ∃ record ∈ host.saved.records,
            Stands m.name host.table created record ∧ destination record = address) ↔
          ∀ record ∈ host.saved.records,
            Stands m.name host.table created record → record.gateway = [])) := by
  constructor
  · intro address gateway output world journaled opened needed unleased found
    have routed : ¬((address.unmap.is4 = true ∧ ¬m.need4 = true) ∨
        (¬address.unmap.is4 = true ∧ ¬m.need6 = true)) := by
      cases family : address.unmap.is4 <;> simp_all
    have entered : m.acquireEndpointRoute (some address) = m.addRoute address.unmap := by
      rw [acquireEndpointRoute, Option.map_some]
      dsimp only
      rw [if_neg routed, if_neg (by simp [opened]), unleased]
    rw [entered, ← announced_sound address.unmap_unmap]
    constructor
    · rintro ⟨leased, -⟩
      by_contra unsound
      obtain ⟨err, leaser, failed⟩ :=
        @addRoute_unsound m address.unmap gateway output world journaled found unsound
      rw [failed] at leased
      cases leased
    · intro sound
      obtain ⟨leaser, after, ledger, leased, saved, member⟩ :=
        @addRoute_sound m address.unmap gateway output world journaled found sound
      rw [leased]
      exact ⟨rfl, ledger, saved, member⟩
  · intro host created journaled fresh valid through answered both
    have sound := (validateEndpointRouteLedger_eq_none.mp valid).2
    obtain ⟨leaser, after, recovered, deleted⟩ := @recovers_recoverRecords
      { m with ledger := host.saved } host [] host.saved.records journaled sound answered
    rw [recover, if_neg (by simp [journaled]), interpret_bind]
    refine ⟨leaser, after, recovered, ?_⟩
    simp only [deleted, fresh, not_mem_nil, false_or]
    exact recognized_exactly_iff sound through both

namespace Sample

def endpoint : Addr := .v4 0xc6336407

/-- What is printed for the usual default route. -/
def usualOutput : Text :=
  "   route to: default\ndestination: default\n    gateway: 192.0.2.254\n  interface: em0\n".toList

/-- IPv4 goes into the tunnel, and the ledger is empty. -/
def fresh : Leaser where
  need4 := true
  need6 := false
  name := "wg0".toList
  journaled := true

def bare : World where
  routes := fun _ => false
  saved := none
  leaser := fresh
  leases := []

/-- A route to the endpoint was added through the gateway or interface. -/
def added (gateway : Gateway) : EndpointRouteLedgerRecord :=
  fresh.activeRecord endpoint gateway

/-- The program has crashed with this route, which is reported so. -/
def crashed (gateway : Gateway) (output : Text) : Crashed where
  saved := { schemaVersion := endpointRouteLedgerSchemaVersion, records := [added gateway] }
  table := fun _ => .ok output
  beneath := fun _ => .ok usualOutput

end Sample

/-- With the usual default route no route is acquired; and recovery leaves a route
that goes through a gateway, with both lines, where it is. -/
theorem usual_gateway_refused :
    (∃ gateway, freeBSDDefaultGateway false Sample.usualOutput = .ok gateway) ∧
    ((Sample.fresh.acquireEndpointRoute (some Sample.endpoint)).interpret
        (working fun _ => Sample.usualOutput) Sample.bare).1.1 =
      .failed "endpoint route record 1 must have exactly one gateway identity" ∧
    Stands Sample.fresh.name (fun _ => .ok Sample.usualOutput)
      (fun _ => ⟨"192.0.2.254".toList, "em0".toList⟩)
      (Sample.added { address := "192.0.2.254".toList }) ∧
    (Sample.fresh.recover.interpret Crashed.reply
      (Sample.crashed { address := "192.0.2.254".toList } Sample.usualOutput)).1.1 = .ok () ∧
    (Sample.fresh.recover.interpret Crashed.reply
      (Sample.crashed { address := "192.0.2.254".toList } Sample.usualOutput)).2.saved.records =
        [] ∧
    (Sample.fresh.recover.interpret Crashed.reply
      (Sample.crashed { address := "192.0.2.254".toList } Sample.usualOutput)).2.deleted = [] :=
  ⟨⟨⟨"192.0.2.254".toList, "em0".toList⟩, by decide +kernel⟩, by decide +kernel,
    ⟨rfl, nofun, by decide +kernel⟩, by decide +kernel, by decide +kernel, by decide +kernel⟩

/-- A default route with a gateway line only is fit for a record, and a route through an
interface is deleted after a crash. -/
theorem single_identity_works :
    (((Sample.fresh.acquireEndpointRoute (some Sample.endpoint)).interpret
        (working fun _ => "gateway: 192.0.2.254".toList) Sample.bare).1.1 = .lease Sample.endpoint ∧
      ∃ ledger, ((Sample.fresh.acquireEndpointRoute (some Sample.endpoint)).interpret
          (working fun _ => "gateway: 192.0.2.254".toList) Sample.bare).2.saved = some ledger ∧
        Sample.added { address := "192.0.2.254".toList } ∈ ledger.records) ∧
    ∃ leaser after, Sample.fresh.recover.interpret Crashed.reply
        (Sample.crashed { interfaceName := "em0".toList } "interface: em0".toList) =
        ((.ok (), leaser), after) ∧ Sample.endpoint ∈ after.deleted := by
  constructor
  · refine ((gateway_identity Sample.fresh).1 Sample.endpoint { address := "192.0.2.254".toList }
      (fun _ => "gateway: 192.0.2.254".toList) Sample.bare rfl rfl rfl rfl
      (by decide +kernel)).mpr ?_
    exact ⟨by decide, fun _ => ⟨.v4 0xc00002fe, by decide +kernel, by decide⟩, by decide, by decide,
      by decide, ⟨by decide, nofun, .nil⟩, by decide, nofun⟩
  · have stands : reported (Sample.crashed { interfaceName := "em0".toList }
        "interface: em0".toList).table Sample.endpoint =
        some { interfaceName := "em0".toList } := by decide +kernel
    have only : ∀ record ∈ (Sample.crashed { interfaceName := "em0".toList }
        "interface: em0".toList).saved.records,
        record = Sample.added { interfaceName := "em0".toList } :=
      fun _ member => mem_singleton.mp member
    obtain ⟨leaser, after, recovered, exactly⟩ := (gateway_identity Sample.fresh).2
      (Sample.crashed { interfaceName := "em0".toList } "interface: em0".toList)
      (fun _ => { interfaceName := "em0".toList }) rfl rfl (by decide +kernel) (by
        intro record member _ _
        rw [only record member]
        exact ⟨fun filled => absurd rfl filled, fun _ => rfl⟩)
      (fun _ _ failed => failed.elim nofun nofun) (by
        intro address gateway found filled
        rw [← Option.some.inj (stands.symm.trans found)] at filled
        exact absurd rfl filled)
    refine ⟨leaser, after, recovered, (exactly.mpr ?_ Sample.endpoint).mpr
      ⟨_, mem_singleton_self _, ⟨rfl, nofun, stands⟩, rfl⟩⟩
    intro record member _
    rw [only record member]
    rfl

end WgQuic.FreeBSDRoutes
