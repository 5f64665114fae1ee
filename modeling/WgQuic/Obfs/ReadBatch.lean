import WgQuic.Obfs.Salamander

/-!
# Batch reads

`ReadBatch` decodes the datagrams of one read of the socket into the messages
of the caller and closes the gaps that undecodable datagrams leave.  The raw
messages receive into the caller's own out-of-band buffers: what is copied for
the datagram `i` is read from the caller's message `i`, while the messages
before it have already been overwritten.
-/

namespace WgQuic.Obfs

open List

open Fec (Bytes)

/-- The address is absent unless it is a `*net.UDPAddr`. -/
structure Message where
  buffers : List Bytes
  oob : Bytes
  n : Nat := 0
  nn : Nat := 0
  flags : Nat := 0
  addr : Option AddrPort := none

/-- A raw message after a read.  `packet` is its buffer up to `N`; its
out-of-band buffer is that of the caller's message of the same index. -/
structure RawMessage where
  packet : Bytes
  nn : Nat
  flags : Nat
  addr : Option AddrPort

/-- What the socket delivers. -/
structure Datagram where
  packet : Bytes
  control : Bytes
  flags : Nat
  addr : Option AddrPort

structure BatchResult where
  datagrams : List Datagram
  err : Option String := none

structure BatchRead where
  n : Nat
  messages : List Message
  err : Option String

/-- The `copy` of Go. -/
def copyInto (destination source : Bytes) : Bytes :=
  source.take destination.length ++ destination.drop source.length

def Datagram.raw (datagram : Datagram) : RawMessage :=
  { packet := datagram.packet
    nn := datagram.control.length
    flags := datagram.flags
    addr := datagram.addr }

/-- The read of the socket writes the out-of-band buffers. -/
def receive : List Datagram → List Message → List Message
  | datagram :: datagrams, message :: messages =>
    { message with oob := copyInto message.oob datagram.control } ::
      receive datagrams messages
  | _, messages => messages

namespace SalamanderConn

/-- The loop over the raw messages from the index `i` on. -/
def decodeLoop (digests : Digests) (i : Nat) :
    List RawMessage → Nat → List Message → SalamanderConn → Nat × List Message × SalamanderConn
  | [], decoded, messages, c => (decoded, messages, c)
  | raw :: rest, decoded, messages, c =>
    match messages[decoded]? with
    -- Never out of range, for `decoded` does not pass `i`.
    | none => (decoded, messages, c)
    | some target =>
      match target.buffers with
      | [] => decodeLoop digests (i + 1) rest decoded messages c
      | output :: others =>
        match c.decode digests raw.packet output.length with
        | (none, c) => decodeLoop digests (i + 1) rest decoded messages c
        | (some (plain, _), c) =>
          let target :=
            { target with buffers := copyInto output plain :: others }
          match raw.addr with
          | none =>
            decodeLoop digests (i + 1) rest decoded (messages.set decoded target) c
          | some addr =>
            let oobn := min raw.nn target.oob.length
            let source := (messages[i]?.elim [] Message.oob).take oobn
            decodeLoop digests (i + 1) rest (decoded + 1)
              (messages.set decoded
                { target with
                  n := plain.length
                  oob := if decoded ≠ i then copyInto target.oob source
                    else target.oob
                  nn := oobn
                  flags := raw.flags
                  addr := some addr }) c

/-- The loop of `ReadBatch`, which waits when the socket has no more results. -/
def readLoop (digests : Digests) :
    List BatchResult → List Message → SalamanderConn → Option BatchRead
  | [], _, _ => none
  | result :: later, messages, c =>
    let messages := receive result.datagrams messages
    if result.datagrams.length = 0 ∨ result.err ≠ none then
      some ⟨result.datagrams.length, messages, result.err⟩
    else
      let (decoded, messages, c) := c.decodeLoop digests 0
        (result.datagrams.map Datagram.raw) 0 messages
      if 0 < decoded then some ⟨decoded, messages, none⟩
      else readLoop digests later messages c

def readBatch (digests : Digests) (c : SalamanderConn) (messages : List Message)
    (results : List BatchResult) : Option BatchRead :=
  if messages.length = 0 then some ⟨0, messages, none⟩
  else readLoop digests results messages c

end SalamanderConn

/-- The decodable datagrams of one read in their order, each with its decoded
payload, and the connection afterwards. -/
def decodables (digests : Digests) :
    List Datagram → SalamanderConn → List (Bytes × Datagram) × SalamanderConn
  | [], c => ([], c)
  | datagram :: rest, c =>
    let (plain, c) := c.decode digests datagram.packet datagram.packet.length
    let (others, c) := decodables digests rest c
    match plain, datagram.addr with
    | some (plain, _), some _ => ((plain, datagram) :: others, c)
    | _, _ => (others, c)

/-- The read that ends the loop, with what it has to return. -/
def answering (digests : Digests) :
    List BatchResult → SalamanderConn → Option (BatchResult × List (Bytes × Datagram))
  | [], _ => none
  | result :: later, c =>
    if result.datagrams.length = 0 ∨ result.err ≠ none then some (result, [])
    else
      match decodables digests result.datagrams c with
      | ([], c) => answering digests later c
      | (wanted, _) => some (result, wanted)

/-- A message holds a decoded datagram; its out-of-band buffer has the given
size. -/
structure Carries (capacity : Nat) (wanted : Bytes × Datagram) (message : Message) : Prop where
  payload : ∃ buffer, message.buffers = [buffer] ∧ buffer.take message.n = wanted.1
  n : message.n = wanted.1.length
  addr : message.addr = wanted.2.addr
  flags : message.flags = wanted.2.flags
  nn : message.nn = min wanted.2.control.length capacity
  oob : message.oob.take message.nn = wanted.2.control.take capacity

/-- One payload buffer with room for a payload, and an out-of-band buffer of
the given size. -/
structure Message.Fits (capacity room : Nat) (message : Message) : Prop where
  oob : message.oob.length = capacity
  buffer : ∃ buffer, message.buffers = [buffer] ∧ room ≤ buffer.length

/-! ## Compaction -/

theorem length_copyInto (destination source : Bytes) :
    (copyInto destination source).length = destination.length := by
  simp [copyInto]
  omega

theorem take_copyInto (destination source : Bytes) :
    (copyInto destination source).take source.length = source.take destination.length := by
  rw [copyInto, take_append, take_take]
  by_cases fits : source.length ≤ destination.length
  · simp [fits]
  · rw [drop_of_length_le (by omega)]
    simp
    omega

theorem SalamanderConn.decode_roomy (digests : Digests) (c : SalamanderConn) {packet : Bytes}
    {capacity : Nat} (room : packet.length - salamanderHeaderSize ≤ capacity) :
    c.decode digests packet capacity = c.decode digests packet packet.length := by
  have small : ¬ capacity < packet.length - salamanderHeaderSize := by omega
  have large : ¬ packet.length < packet.length - salamanderHeaderSize := by omega
  unfold decode
  simp only [small, large, or_false]

/-- The loop stands at the index `i`: the messages before `decoded` are what is
returned, and the out-of-band data of the unread datagrams is still in place. -/
structure Compacting (capacity room i decoded : Nat) (unread : List Datagram)
    (messages : List Message) (returned : List (Bytes × Datagram)) : Prop where
  behind : decoded ≤ i
  enough : i + unread.length ≤ messages.length
  fits : ∀ message ∈ messages, message.Fits capacity room
  control : ∀ k datagram message, unread[k]? = some datagram → messages[i + k]? = some message →
      message.oob.take datagram.control.length = datagram.control.take capacity
  carried : List.Forall₂ (Carries capacity) returned (messages.take decoded)

namespace Compacting

variable {capacity room i decoded : Nat} {datagram : Datagram} {unread : List Datagram}
  {messages : List Message} {returned : List (Bytes × Datagram)} {target : Message}

section

variable (state : Compacting capacity room i decoded (datagram :: unread) messages returned)

include state

theorem skip : Compacting capacity room (i + 1) decoded unread messages returned := by
  have behind := state.behind
  have enough := state.enough
  rw [length_cons] at enough
  refine ⟨by omega, by omega, state.fits, ?_, state.carried⟩
  intro k later message unreadAt messageAt
  apply state.control (k + 1) later message
  · exact unreadAt
  · rw [← messageAt]
    congr 1
    omega

/-- The message to be returned next may be written: the unread ones are behind
it. -/
theorem write (fits : target.Fits capacity room) :
    Compacting capacity room (i + 1) decoded unread (messages.set decoded target) returned := by
  have behind := state.behind
  obtain ⟨later, enough, allFit, control, carried⟩ := state.skip
  refine ⟨later, by simpa using enough, ?_, ?_, ?_⟩
  · intro message member
    rcases mem_or_eq_of_mem_set member with member | rfl
    · exact allFit message member
    · exact fits
  · intro k later message unreadAt messageAt
    rw [getElem?_set_ne (by omega)] at messageAt
    exact control k later message unreadAt messageAt
  · rw [take_set_of_le (le_refl decoded)]
    exact carried

theorem store (fits : target.Fits capacity room) {wanted : Bytes × Datagram}
    (carries : Carries capacity wanted target) :
    Compacting capacity room (i + 1) (decoded + 1) unread (messages.set decoded target)
      (returned ++ [wanted]) := by
  have behind := state.behind
  have enough := state.enough
  rw [length_cons] at enough
  obtain ⟨_, length, allFit, control, carried⟩ := state.write fits
  have written : (messages.set decoded target)[decoded]? = some target := by
    rw [getElem?_set_self (by omega)]
  refine ⟨by omega, length, allFit, control, ?_⟩
  rw [take_add_one, written]
  exact rel_append carried (.cons carries .nil)

/-- Decoding the datagram `i` into the message `decoded` keeps its own
out-of-band data, whether or not it is copied. -/
theorem oob (found : messages[decoded]? = some target) (oobn : Nat)
    (limit : oobn = min datagram.control.length capacity) (copied : Bytes)
    (copy : copied = if decoded ≠ i then
      copyInto target.oob ((messages[i]?.elim [] Message.oob).take oobn) else target.oob) :
    copied.length = capacity ∧ copied.take oobn = datagram.control.take capacity := by
  have enough := state.enough
  rw [length_cons] at enough
  have sized : target.oob.length = capacity := (state.fits target (mem_of_getElem? found)).oob
  obtain ⟨source, sourceAt⟩ : ∃ source, messages[i]? = some source :=
    ⟨_, getElem?_eq_getElem (by omega)⟩
  have sourceSized := (state.fits source (mem_of_getElem? sourceAt)).oob
  have kept := state.control 0 datagram source rfl sourceAt
  have limited : source.oob.take oobn = datagram.control.take capacity := by
    rw [← kept, limit, ← take_take, take_of_length_le (l := source.oob) (by omega)]
  by_cases inPlace : decoded = i
  · subst inPlace
    rw [found] at sourceAt
    cases sourceAt
    rw [copy, if_neg (by simp)]
    exact ⟨sized, limited⟩
  · rw [copy, if_pos inPlace, sourceAt]
    dsimp only [Option.elim]
    have length : (source.oob.take oobn).length = oobn := by
      rw [length_take]
      omega
    have prefixed := take_copyInto target.oob (source.oob.take oobn)
    rw [length, sized, limited, take_take, Nat.min_self] at prefixed
    refine ⟨by rw [length_copyInto, sized], ?_⟩
    rw [limited]
    exact prefixed

end

end Compacting

theorem Message.Fits.overwrite {capacity room n nn flags : Nat} {oob output : Bytes}
    {others : List Bytes} {addr : Option AddrPort} {target : Message}
    (fits : target.Fits capacity room) (plain : Bytes) (buffers : target.buffers = output :: others)
    (sized : oob.length = capacity) :
    Message.Fits capacity room ⟨copyInto output plain :: others, oob, n, nn, flags, addr⟩ := by
  obtain ⟨buffer, single, large⟩ := fits.buffer
  rw [buffers] at single
  cases single
  exact ⟨sized, copyInto output plain, rfl, by rw [length_copyInto]; exact large⟩

theorem SalamanderConn.length_of_decode {digests : Digests} {c after : SalamanderConn}
    {packet plain : Bytes} {capacity : Nat} {key : Key}
    (decodes : c.decode digests packet capacity = (some (plain, key), after)) :
    plain.length = packet.length - salamanderHeaderSize := by
  unfold decode at decodes
  split at decodes
  · cases decodes
  · dsimp only at decodes
    split at decodes
    · cases decodes
      simp [xorWords]
    · split at decodes
      · cases decodes
        simp [xorWords]
      · cases decodes

theorem decodeLoop_compacts (digests : Digests) (capacity room i decoded : Nat)
    (unread : List Datagram) (messages : List Message) (returned : List (Bytes × Datagram))
    (c : SalamanderConn) (state : Compacting capacity room i decoded unread messages returned)
    (roomy : ∀ datagram ∈ unread, datagram.packet.length - salamanderHeaderSize ≤ room) :
    ∃ after, c.decodeLoop digests i (unread.map Datagram.raw) decoded messages =
        (decoded + (decodables digests unread c).1.length, after, (decodables digests unread c).2) ∧
      after.length = messages.length ∧
      (∀ message ∈ after, message.Fits capacity room) ∧
      List.Forall₂ (Carries capacity) (returned ++ (decodables digests unread c).1)
        (after.take (decoded + (decodables digests unread c).1.length)) := by
  induction unread generalizing i decoded messages returned c with
  | nil =>
    refine ⟨messages, rfl, rfl, state.fits, ?_⟩
    simpa [decodables] using state.carried
  | cons datagram rest ih =>
    have behind := state.behind
    have enough := state.enough
    rw [length_cons] at enough
    have laterRoomy : ∀ later ∈ rest, later.packet.length - salamanderHeaderSize ≤ room :=
      fun later member => roomy later (mem_cons_of_mem datagram member)
    obtain ⟨target, found⟩ : ∃ target, messages[decoded]? = some target :=
      ⟨_, getElem?_eq_getElem (by omega)⟩
    have fits := state.fits target (mem_of_getElem? found)
    obtain ⟨output, buffers, large⟩ := fits.buffer
    have decoding := c.decode_roomy digests (Nat.le_trans (roomy datagram mem_cons_self) large)
    rw [map_cons, SalamanderConn.decodeLoop, found]
    dsimp only
    rw [buffers]
    dsimp only [Datagram.raw]
    rw [decoding, decodables]
    match decodes : c.decode digests datagram.packet datagram.packet.length with
    | (none, next) => exact ih _ _ _ _ _ state.skip laterRoomy
    | (some (plain, key), next) =>
      obtain ⟨packet, control, flags, addr⟩ := datagram
      cases addr with
      | none =>
        obtain ⟨after, loops, length, kept, carried⟩ := ih (i + 1) decoded _ _ next
          (state.write (fits.overwrite plain buffers fits.oob)) laterRoomy
        exact ⟨after, loops, by rw [length, length_set], kept, carried⟩
      | some addr =>
        dsimp only
        rw [fits.oob]
        generalize copy : (if decoded ≠ i then copyInto target.oob
          ((messages[i]?.elim [] Message.oob).take (min control.length capacity))
          else target.oob) = copied
        obtain ⟨sized, kept⟩ := state.oob found _ rfl copied copy.symm
        have carries : Carries capacity (plain, ⟨packet, control, flags, some addr⟩)
            ⟨[copyInto output plain], copied, plain.length,
              min control.length capacity, flags, some addr⟩ := by
          refine ⟨⟨_, rfl, ?_⟩, rfl, rfl, rfl, rfl, kept⟩
          rw [take_copyInto, take_of_length_le]
          rw [SalamanderConn.length_of_decode decodes]
          exact Nat.le_trans (roomy _ mem_cons_self) large
        obtain ⟨after, loops, length, kept, carried⟩ := ih (i + 1) (decoded + 1) _ _ next
          (state.store (fits.overwrite _ buffers sized) carries) laterRoomy
        refine ⟨after, ?_, by rw [length, length_set], kept, ?_⟩
        · rw [loops, length_cons]
          congr 1
          omega
        · rw [length_cons, ← Nat.add_assoc, Nat.add_right_comm]
          simpa using carried

/-! ## Whole reads -/

theorem length_receive (datagrams : List Datagram) (messages : List Message) :
    (receive datagrams messages).length = messages.length := by
  fun_induction receive datagrams messages with
  | case1 datagram datagrams message messages ih => simp [ih]
  | case2 => rfl

variable {datagrams : List Datagram} {messages : List Message} {capacity room : Nat}

theorem receive_fits (fits : ∀ message ∈ messages, message.Fits capacity room) :
    ∀ message ∈ receive datagrams messages, message.Fits capacity room := by
  fun_induction receive datagrams messages with
  | case1 datagram datagrams message messages ih =>
    rw [forall_mem_cons] at fits ⊢
    exact ⟨⟨by rw [length_copyInto, fits.1.oob], fits.1.buffer⟩, ih fits.2⟩
  | case2 => exact fits

theorem receive_control
    (fits : ∀ message ∈ messages, message.Fits capacity room) (k : Nat) (datagram : Datagram)
    (message : Message) (unreadAt : datagrams[k]? = some datagram)
    (messageAt : (receive datagrams messages)[k]? = some message) :
    message.oob.take datagram.control.length = datagram.control.take capacity := by
  fun_induction receive datagrams messages generalizing k with
  | case1 first datagrams target messages ih =>
    rw [forall_mem_cons] at fits
    cases k with
    | zero =>
      cases unreadAt
      cases messageAt
      rw [take_copyInto, fits.1.oob]
    | succ k => exact ih fits.2 k unreadAt messageAt
  | case2 datagrams messages uneven =>
    cases datagrams with
    | nil => cases unreadAt
    | cons first rest =>
      cases messages with
      | nil => cases messageAt
      | cons target messages => exact (uneven first rest target messages rfl rfl).elim

theorem Compacting.received (fits : ∀ message ∈ messages, message.Fits capacity room)
    (enough : datagrams.length ≤ messages.length) :
    Compacting capacity room 0 0 datagrams (receive datagrams messages) [] := by
  refine ⟨le_refl 0, ?_, receive_fits fits, ?_, List.Forall₂.nil⟩
  · rw [length_receive, Nat.zero_add]
    exact enough
  · intro k datagram message unreadAt messageAt
    rw [Nat.zero_add] at messageAt
    exact receive_control fits k datagram message unreadAt messageAt

/-- What the loop owes its caller when the socket answers with the results. -/
def Answered (digests : Digests) (capacity : Nat) (results : List BatchResult)
    (c : SalamanderConn) (read : Option BatchRead) : Prop :=
  match answering digests results c with
  | none => read = none
  | some (result, wanted) => ∃ n messages, read = some ⟨n, messages, result.err⟩ ∧
      if result.err = none then n = wanted.length ∧
        List.Forall₂ (Carries capacity) wanted (messages.take n)
      else n = result.datagrams.length

theorem readLoop_answered (digests : Digests) (capacity room : Nat) (results : List BatchResult)
    (messages : List Message) (c : SalamanderConn)
    (fits : ∀ message ∈ messages, message.Fits capacity room)
    (enough : ∀ result ∈ results, result.datagrams.length ≤ messages.length)
    (roomy : ∀ result ∈ results, ∀ datagram ∈ result.datagrams,
      datagram.packet.length - salamanderHeaderSize ≤ room) :
    Answered digests capacity results c (c.readLoop digests results messages) := by
  induction results generalizing messages c with
  | nil => rfl
  | cons result later ih =>
    rw [forall_mem_cons] at enough roomy
    obtain ⟨after, loops, length, kept, carried⟩ := decodeLoop_compacts digests capacity room
      0 0 _ _ [] c (Compacting.received fits enough.1) roomy.1
    rw [length_receive] at length
    rw [SalamanderConn.readLoop, Answered, answering]
    by_cases ended : result.datagrams.length = 0 ∨ result.err ≠ none
    · simp only [if_pos ended]
      refine ⟨_, _, rfl, ?_⟩
      split
      · next fine =>
        have empty := ended.resolve_right (by simp [fine])
        simp [empty]
      · rfl
    have fine : result.err = none := by
      by_contra failed
      exact ended (.inr failed)
    simp only [if_neg ended, loops]
    match wants : decodables digests result.datagrams c with
    | ([], next) =>
      exact ih after next kept (by rw [length]; exact enough.2) roomy.2
    | (wanted :: others, next) =>
      rw [wants] at carried
      refine ⟨_, after, by rw [fine]; rfl, ?_⟩
      rw [if_pos fine]
      exact ⟨by simp, by simpa using carried⟩

/-- A read without messages returns at once.  Any other one skips the results
in which nothing can be decoded; of the next one it returns, in order, one
message for every decodable datagram, with its payload, address, flags and
out-of-band data. -/
theorem readBatch_lossless (digests : Digests) (capacity room : Nat) (c : SalamanderConn)
    (messages : List Message) (results : List BatchResult)
    (fits : ∀ message ∈ messages, message.Fits capacity room)
    (enough : ∀ result ∈ results, result.datagrams.length ≤ messages.length)
    (roomy : ∀ result ∈ results, ∀ datagram ∈ result.datagrams,
      datagram.packet.length - salamanderHeaderSize ≤ room) :
    if messages.length = 0 then c.readBatch digests messages results = some ⟨0, messages, none⟩
    else Answered digests capacity results c (c.readBatch digests messages results) := by
  rw [SalamanderConn.readBatch]
  split
  · rfl
  · exact readLoop_answered digests capacity room results messages c fits enough roomy

/-- The first datagram is too short to be decoded, the second is moved into its
place. -/
def gapResult : BatchResult where
  datagrams :=
    [⟨[1], [5, 6], 0, none⟩, ⟨List.replicate 16 0 ++ [8], [7], 3, some ⟨.v4 1, 443⟩⟩]
  err := none

theorem readBatch_lossless_gap :
    (answering zeroDigests [gapResult] zeroConn).map (fun answer => answer.2.map Prod.fst) =
        some [[8]] ∧
      Answered zeroDigests 2 [gapResult] zeroConn (zeroConn.readBatch zeroDigests
          [⟨[[0, 0]], [0, 0], 0, 0, 0, none⟩, ⟨[[0]], [0, 0], 0, 0, 0, none⟩] [gapResult]) := by
  refine ⟨by decide, ?_⟩
  have answered := readBatch_lossless zeroDigests 2 1 zeroConn
    [⟨[[0, 0]], [0, 0], 0, 0, 0, none⟩, ⟨[[0]], [0, 0], 0, 0, 0, none⟩] [gapResult]
    (by
      rw [forall_mem_cons, forall_mem_singleton]
      exact ⟨⟨rfl, [0, 0], rfl, by decide⟩, ⟨rfl, [0], rfl, by decide⟩⟩)
    (by decide) (by decide)
  rwa [if_neg (by decide)] at answered

end WgQuic.Obfs
