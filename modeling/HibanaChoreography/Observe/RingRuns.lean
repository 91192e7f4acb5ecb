/-
This file is about histories of the diagnostic ring: events are pushed, ports are opened
and read, in any order.

Beside the ring stands what an outside reader would note: all events that were pushed, and
for each port the numbers of the events it has yielded. The next event of a port is the
least one in the ring that is behind all it has yielded. The ring answers just so, as long
as no port is more than one turn of the counter behind when it reads.
-/

import HibanaChoreography.Observe.Ring
import HibanaChoreography.Library.Machine
import Mathlib.Data.Nat.Prime.Basic

namespace Hibana

open Outcome Machines List

/-! ### The feed -/

/-- What a port has read: the oldest event it could read at first, and the numbers of the events it
has yielded, the last one first. -/
structure Reader where
  origin : Nat
  yielded : List Nat

/-- The first event a reader has not passed. -/
def Reader.position (reader : Reader) : Nat :=
  match reader.yielded with
  | [] => reader.origin
  | last :: _ => last + 1

/-- All events of a producer, and its readers. -/
structure Feed where
  events : List TapEvent
  readers : List Reader

namespace Feed

def empty : Feed := ⟨[], []⟩

/-- The oldest event in the ring. -/
def oldest (feed : Feed) : Nat := feed.events.length - tapEvents

/-- The numbers of the events in the ring. -/
def resident (feed : Feed) : List Nat :=
  List.range' feed.oldest (feed.events.length - feed.oldest)

/-- The next event of a reader: the least one in the ring behind all it has yielded. -/
def unread (feed : Feed) (reader : Reader) : Option Nat :=
  feed.resident.find? fun number => reader.yielded.all (· < number)

def push (feed : Feed) (event : TapEvent) : Feed :=
  { feed with events := feed.events ++ [event] }

def addReader (feed : Feed) : Feed :=
  { feed with readers := feed.readers ++ [⟨feed.oldest, []⟩] }

/-- A reader behind its next event. -/
def read (feed : Feed) (reader : Reader) : Reader :=
  (feed.unread reader).elim reader fun number =>
    { reader with yielded := number :: reader.yielded }

end Feed

/-! ### The machine -/

/-- A ring with its ports, and its feed. The code reads nothing of the feed. -/
structure Tap (width : Nat) where
  ring : TapRing width
  ports : List (RingPort width)
  feed : Feed

inductive TapOp where
  | push (event : TapEvent)
  | port
  | next (port : Nat)
  | checkpoint (port : Nat)

inductive TapReply where
  | pushed (observed : TapEvent)
  | opened
  | read (event : Option TapEvent)
  | checkpoint (ordinal : Option UInt32)

namespace Tap

variable {width : Nat}

def new (width : Nat) (storage : List TapRecord) : Tap width :=
  ⟨.fromStorage width storage, [], .empty⟩

/-- A port reads when it is at most one turn of the counter behind the producer. -/
def Admits (tap : Tap width) : TapOp → Prop
  | .push _ | .port => True
  | .next port => ∃ reader, tap.feed.readers[port]? = some reader ∧
      tap.feed.events.length - reader.position ≤ 2 ^ width
  | .checkpoint port => port < tap.ports.length

def perform (tap : Tap width) : TapOp → Run (TapReply × Tap width)
  | .push event => do
    let (observed, ring) ← tap.ring.push event
    return (.pushed observed, { tap with ring, feed := tap.feed.push event })
  | .port =>
    return (.opened, { tap with
      ports := tap.ports ++ [tap.ring.port], feed := tap.feed.addReader })
  | .next index =>
    match tap.ports[index]? with
    | none => .error .invariant
    | some port => do
      let (event, port) ← port.next tap.ring
      return (.read event, { tap with
        ports := tap.ports.set index port
        feed := { tap.feed with readers := tap.feed.readers.modify index tap.feed.read } })
  | .checkpoint _ => return (.checkpoint tap.ring.checkpoint, tap)

def machine (width : Nat) : Machine (Tap width) TapOp TapReply :=
  ⟨Admits, perform⟩

/-- An event with the ordinal of its push: the number itself while the ordinals last. -/
def Stamped (feed : Feed) (number : Nat) (event : TapEvent) : Prop :=
  (∃ pushed, feed.events[number]? = some pushed ∧ event = { pushed with ts := event.ts }) ∧
    (event.ts.toNat = number ∨ event.ts = ordinalMax) ∧
    (feed.events.length ≤ 2 ^ 32 - 1 → event.ts.toNat = number)

/-- What a reply says of the feed before the request. -/
def Answers (feed : Feed) : TapOp → TapReply → Prop
  | .next port, .read none => ∃ reader, feed.readers[port]? = some reader ∧
      feed.unread reader = none
  | .next port, .read (some event) => ∃ reader number, feed.readers[port]? = some reader ∧
      feed.unread reader = some number ∧ Stamped feed number event
  | .checkpoint _, .checkpoint ordinal =>
      (feed.events.length < 2 ^ 32 - 1 → ordinal.map UInt32.toNat = some feed.events.length) ∧
        (2 ^ 32 - 1 ≤ feed.events.length → ordinal = none)
  | .push _, .pushed _ | .port, .opened => True
  | _, _ => False

end Tap

/-! ### Counters that wrap -/

section Counters

variable {width : Nat}

theorem ofNat_sub_ofNat {high low : Nat} (le : low ≤ high) :
    BitVec.ofNat width high - BitVec.ofNat width low = BitVec.ofNat width (high - low) := by
  have split : BitVec.ofNat width high =
      BitVec.ofNat width (high - low) + BitVec.ofNat width low := by
    rw [← BitVec.ofNat_add, Nat.sub_add_cancel le]
  rw [split, BitVec.add_sub_cancel]

/-- Counters less than a turn apart are told apart. -/
theorem ofNat_eq_iff {high low : Nat} (le : low ≤ high) (near : high - low < 2 ^ width) :
    BitVec.ofNat width low = BitVec.ofNat width high ↔ low = high := by
  constructor
  · intro same
    have distance : BitVec.ofNat width high - BitVec.ofNat width low =
        BitVec.ofNat width (high - low) := ofNat_sub_ofNat le
    rw [same, BitVec.sub_self] at distance
    have isZero := congrArg BitVec.toNat distance.symm
    rw [BitVec.toNat_ofNat, Nat.mod_eq_of_lt near, BitVec.toNat_ofNat, Nat.zero_mod] at isZero
    omega
  · rintro rfl
    rfl

theorem tapEvents_eq : tapEvents = 21 := rfl

/-- A turn of the counter is no number of turns of the ring. -/
theorem add_turn_mod_ne (position : Nat) :
    (position + 2 ^ width) % tapEvents ≠ position % tapEvents := by
  intro same
  have divides : tapEvents ∣ 2 ^ width := by
    have := Nat.sub_mod_eq_zero_of_mod_eq same
    rw [Nat.add_sub_cancel_left] at this
    exact Nat.dvd_of_mod_eq_zero this
  have three : 3 ∣ 2 ^ width := Dvd.dvd.trans (by decide : 3 ∣ tapEvents) divides
  exact absurd (Nat.prime_three.dvd_of_dvd_pow three) (by decide)

end Counters

/-! ### What the ring holds -/

/-- A ring holds the last events of its feed. -/
structure TapRing.Holds {width : Nat} (ring : TapRing width) (feed : Feed) : Prop where
  head : ring.head = BitVec.ofNat width feed.events.length
  writeIndex : ring.state.writeIndex.toNat = feed.events.length % tapEvents
  residentLen : ring.state.residentLen.toNat = min feed.events.length tapEvents
  headEra : ring.state.headEra = .wrapped ↔ 2 ^ width ≤ feed.events.length
  slots : ring.storage.length = tapEvents
  records : ∀ number event, feed.oldest ≤ number → feed.events[number]? = some event →
    ring.storage[number % tapEvents]? = some (.fromEvent event)

/-- A port is where its reader is. -/
structure RingPort.Tracks {width : Nat} (port : RingPort width) (feed : Feed) (reader : Reader) :
    Prop where
  cursor : port.cursor = BitVec.ofNat width reader.position
  index : port.index.toNat = reader.position % tapEvents
  origin : reader.origin ≤ feed.oldest
  bound : reader.position ≤ feed.events.length
  inOrder : reader.yielded.Pairwise (· > ·)

variable {number : Nat}

namespace Feed

variable {feed : Feed} {reader : Reader}

/-- A number is behind all that was yielded if it is not before the position. -/
theorem all_lt_iff (inOrder : reader.yielded.Pairwise (· > ·))
    (afterOrigin : reader.origin ≤ number) :
    reader.yielded.all (· < number) = true ↔ reader.position ≤ number := by
  obtain ⟨origin, yielded⟩ := reader
  cases yielded with
  | nil => simpa [Reader.position] using afterOrigin
  | cons last rest =>
    rw [pairwise_cons] at inOrder
    rw [all_cons, Bool.and_eq_true, decide_eq_true_iff]
    constructor
    · exact fun all => all.1
    · intro less
      refine ⟨less, all_eq_true.mpr ?_⟩
      intro earlier mem
      exact decide_eq_true ((inOrder.1 earlier mem).trans less)

/-- The first number of a range that is not before a bound. -/
theorem find?_range' (start count bound : Nat) {condition : Nat → Bool}
    (isBound : ∀ number, start ≤ number → (condition number = true ↔ bound ≤ number)) :
    (List.range' start count).find? condition =
      if max bound start < start + count then some (max bound start) else none := by
  induction count generalizing start with
  | zero => simp [show ¬max bound start < start by omega]
  | succ count hyp =>
    rw [range'_succ, find?_cons]
    by_cases passed : bound ≤ start
    · rw [(isBound start le_rfl).mpr passed, max_eq_right passed, if_pos (by omega)]
    · have fails : condition start = false := by
        rw [← Bool.not_eq_true, isBound start le_rfl]
        exact passed
      rw [fails]
      have rest := hyp (start + 1) fun number le => isBound number (by omega)
      rw [max_eq_left (by omega)] at rest ⊢
      rw [rest, show start + 1 + count = start + (count + 1) by omega]

/-- The next event of a reader is the one at its position, or the oldest one. -/
theorem unread_eq (inOrder : reader.yielded.Pairwise (· > ·))
    (origin : reader.origin ≤ feed.oldest) :
    feed.unread reader = if max reader.position feed.oldest < feed.events.length then
        some (max reader.position feed.oldest)
      else none := by
  have isBound : ∀ number, feed.oldest ≤ number →
      (reader.yielded.all (· < number) = true ↔ reader.position ≤ number) :=
    fun number le => all_lt_iff inOrder (origin.trans le)
  rw [unread, resident, find?_range' _ _ reader.position isBound]
  have total : feed.oldest + (feed.events.length - feed.oldest) = feed.events.length := by
    rw [oldest]
    omega
  rw [total]

end Feed

section Reads

variable {width : Nat} {ring : TapRing width} {feed : Feed} {port : RingPort width}
  {reader : Reader}

theorem TapRing.Holds.oldestIndex (holds : ring.Holds feed) :
    ring.state.oldestIndex.toNat = feed.oldest % tapEvents := by
  have writeIndex := holds.writeIndex
  have residentLen := holds.residentLen
  rw [RingState.oldestIndex, writeIndex, residentLen, Feed.oldest]
  simp only [tapEvents_eq] at *
  rw [UInt8.toNat_ofNat']
  omega

/-- A new port is at the oldest event. -/
theorem TapRing.Holds.newPort (holds : ring.Holds feed) :
    ring.port.cursor = BitVec.ofNat width feed.oldest ∧
      ring.port.index.toNat = feed.oldest % tapEvents := by
  refine ⟨?_, holds.oldestIndex⟩
  have resident : feed.events.length - min feed.events.length tapEvents = feed.oldest := by
    rw [Feed.oldest]
    omega
  show ring.head - BitVec.ofNat width ring.state.residentLen.toNat = _
  rw [holds.head, holds.residentLen, ofNat_sub_ofNat (Nat.min_le_left _ _), resident]

/-- A port that was left behind goes on with the oldest event. -/
theorem RingPort.Tracks.normalizeCursor (tracks : port.Tracks feed reader) (holds : ring.Holds feed)
    (wide : tapEvents < 2 ^ width) (near : feed.events.length - reader.position ≤ 2 ^ width) :
    (port.normalizeCursor ring).cursor = BitVec.ofNat width (max reader.position feed.oldest) ∧
      (port.normalizeCursor ring).index.toNat = max reader.position feed.oldest % tapEvents := by
  have bound := tracks.bound
  have distance : ring.head - port.cursor =
      BitVec.ofNat width (feed.events.length - reader.position) := by
    rw [holds.head, tracks.cursor, ofNat_sub_ofNat bound]
  have isOldest : feed.oldest = feed.events.length - tapEvents := rfl
  have resident := holds.residentLen
  rw [RingPort.normalizeCursor]
  simp only [distance, BitVec.toNat_ofNat]
  by_cases turn : feed.events.length - reader.position = 2 ^ width
  · -- The cursor is one turn behind, and only the index tells.
    have differs : port.index ≠ ring.state.writeIndex := by
      intro same
      have sameMod := congrArg UInt8.toNat same
      rw [tracks.index, holds.writeIndex,
        show feed.events.length = reader.position + 2 ^ width by omega] at sameMod
      exact add_turn_mod_ne _ sameMod.symm
    have jumps : BitVec.ofNat width (feed.events.length - reader.position) = 0 := by
      rw [turn]
      apply BitVec.eq_of_toNat_eq
      rw [BitVec.toNat_ofNat, Nat.mod_self]
      rfl
    rw [if_pos (.inr ⟨jumps, differs⟩), max_eq_right (by omega)]
    exact holds.newPort
  · rw [Nat.mod_eq_of_lt (by omega)]
    by_cases behind : feed.events.length - reader.position > ring.state.residentLen.toNat
    · rw [if_pos (.inl behind), max_eq_right (by omega)]
      exact holds.newPort
    · have stays : ¬(BitVec.ofNat width (feed.events.length - reader.position) = 0 ∧
          port.index ≠ ring.state.writeIndex) := by
        rintro ⟨isZero, differs⟩
        have zero := congrArg BitVec.toNat isZero
        rw [BitVec.toNat_ofNat, Nat.mod_eq_of_lt (by omega)] at zero
        have caughtUp : feed.events.length - reader.position = 0 := zero
        apply differs
        apply UInt8.toNat_inj.mp
        rw [tracks.index, holds.writeIndex, show reader.position = feed.events.length by omega]
      rw [if_neg (by rw [not_or]; exact ⟨behind, stays⟩), max_eq_left (by omega)]
      exact ⟨tracks.cursor, tracks.index⟩

/-- The next slot of the ring. -/
theorem next_index {index : UInt8} {position : Nat} (isIndex : index.toNat = position % tapEvents) :
    (if index.toNat + 1 = tapEvents then 0 else index + 1).toNat = (position + 1) % tapEvents := by
  rw [tapEvents_eq] at isIndex ⊢
  by_cases last : index.toNat + 1 = 21
  · rw [if_pos last]
    show 0 = _
    omega
  · rw [if_neg last, UInt8.toNat_add, isIndex]
    show (position % 21 + 1) % 256 = _
    omega

/-- A port with nothing left to read. -/
theorem RingPort.Tracks.next_none (tracks : port.Tracks feed reader) (holds : ring.Holds feed)
    (wide : tapEvents < 2 ^ width) (near : feed.events.length - reader.position ≤ 2 ^ width)
    (nothing : feed.unread reader = none) :
    ∃ after, port.next ring = .ok (none, after) ∧ after.Tracks feed reader := by
  rw [Feed.unread_eq tracks.inOrder tracks.origin] at nothing
  have bound := tracks.bound
  have caughtUp : reader.position = feed.events.length := by
    split at nothing
    · cases nothing
    · next notLess =>
      rw [Feed.oldest, tapEvents_eq] at notLess
      omega
  obtain ⟨cursor, index⟩ := tracks.normalizeCursor holds wide near
  have position : max reader.position feed.oldest = reader.position := by
    rw [Feed.oldest]
    omega
  rw [position] at cursor index
  refine ⟨port.normalizeCursor ring, ?_, cursor, index, tracks.origin, bound, tracks.inOrder⟩
  rw [RingPort.next, RingPort.peek, if_pos (by rw [cursor, holds.head, caughtUp])]
  rfl

theorem timestamp_spec (holds : ring.Holds feed) (wide : 32 ≤ width)
    (le : number ≤ feed.events.length) :
    let ordinal := timestamp (BitVec.ofNat width number) ring.state.headEra
    (ordinal.toNat = number ∨ ordinal = ordinalMax) ∧
      (feed.events.length ≤ 2 ^ 32 - 1 → ordinal.toNat = number) := by
  have turn : 2 ^ 32 ≤ 2 ^ width := Nat.pow_le_pow_right (by decide) wide
  have max : ordinalMax.toNat = 2 ^ 32 - 1 := rfl
  simp only [timestamp, BitVec.toNat_ofNat]
  split
  · next exhausted =>
    refine ⟨.inr rfl, ?_⟩
    intro few
    rw [holds.headEra, Nat.mod_eq_of_lt (by omega)] at exhausted
    omega
  · next fresh =>
    rw [not_or, holds.headEra] at fresh
    have small : number % 2 ^ width = number := Nat.mod_eq_of_lt (by omega)
    rw [small] at fresh ⊢
    have exact : (UInt32.ofNat number).toNat = number := by
      rw [UInt32.toNat_ofNat']
      exact Nat.mod_eq_of_lt (by omega)
    exact ⟨.inl exact, fun _ => exact⟩

/-- A port yields the next event of its reader. -/
theorem RingPort.Tracks.next_some (tracks : port.Tracks feed reader) (holds : ring.Holds feed)
    (wide : 32 ≤ width) (near : feed.events.length - reader.position ≤ 2 ^ width)
    (isNext : feed.unread reader = some number) :
    ∃ event after, port.next ring = .ok (some event, after) ∧ Tap.Stamped feed number event ∧
      after.Tracks feed { reader with yielded := number :: reader.yielded } := by
  have turn : 2 ^ 32 ≤ 2 ^ width := Nat.pow_le_pow_right (by decide) wide
  have room : tapEvents < 2 ^ width := lt_of_lt_of_le (by decide) turn
  have bound := tracks.bound
  obtain ⟨cursor, index⟩ := tracks.normalizeCursor holds room near
  rw [Feed.unread_eq tracks.inOrder tracks.origin] at isNext
  split at isNext
  · next less =>
    cases isNext
    have isOldest : feed.oldest = feed.events.length - tapEvents := rfl
    have resident : feed.events.length - max reader.position feed.oldest ≤ tapEvents := by omega
    obtain ⟨pushed, isPushed⟩ : ∃ pushed, feed.events[max reader.position feed.oldest]? =
        some pushed := ⟨_, getElem?_eq_getElem less⟩
    have record := holds.records _ pushed (le_max_right _ _) isPushed
    have notEnd : (port.normalizeCursor ring).cursor ≠ ring.head := by
      rw [cursor, holds.head, Ne, ofNat_eq_iff less.le (by omega)]
      omega
    have stamp := timestamp_spec holds wide less.le
    let ordinal := timestamp (BitVec.ofNat width (max reader.position feed.oldest))
      ring.state.headEra
    refine ⟨{ pushed with ts := ordinal }, (port.normalizeCursor ring).advance, ?_,
      ⟨⟨pushed, isPushed, rfl⟩, stamp⟩, ?_⟩
    · rw [RingPort.next, RingPort.peek, if_neg notEnd, index, record, cursor,
        ← TapRecord.toEvent_fromEvent]
      rfl
    · refine ⟨?_, ?_, tracks.origin, less, ?_⟩
      · show (port.normalizeCursor ring).cursor + 1 = _
        rw [cursor]
        exact (BitVec.ofNat_add _ _).symm
      · exact next_index index
      · refine pairwise_cons.mpr ⟨?_, tracks.inOrder⟩
        intro earlier mem
        have all := (Feed.all_lt_iff tracks.inOrder (tracks.origin.trans
          (le_max_right reader.position feed.oldest))).mpr (le_max_left _ _)
        exact of_decide_eq_true (all_eq_true.mp all earlier mem)
  · cases isNext

/-- A port opened now. -/
theorem TapRing.Holds.tracks_port (holds : ring.Holds feed) :
    ring.port.Tracks feed ⟨feed.oldest, []⟩ := by
  obtain ⟨cursor, index⟩ := holds.newPort
  exact ⟨cursor, index, le_rfl, Nat.sub_le _ _, List.Pairwise.nil⟩

/-- Readers stay where they are when an event is pushed. -/
theorem RingPort.Tracks.push (tracks : port.Tracks feed reader) (event : TapEvent) :
    port.Tracks (feed.push event) reader := by
  have origin := tracks.origin
  have bound := tracks.bound
  refine ⟨tracks.cursor, tracks.index, ?_, ?_, tracks.inOrder⟩
  · simp only [Feed.oldest, Feed.push, length_append, length_singleton] at *
    omega
  · simp only [Feed.push, length_append, length_singleton]
    omega

theorem TapRing.Holds.push (holds : ring.Holds feed) (wide : 32 ≤ width) (event : TapEvent) :
    ∃ observed next, ring.push event = .ok (observed, next) ∧ next.Holds (feed.push event) := by
  have turn : 2 ^ 32 ≤ 2 ^ width := Nat.pow_le_pow_right (by decide) wide
  have inBounds : ring.state.writeIndex.toNat < ring.storage.length := by
    rw [holds.writeIndex, holds.slots]
    exact Nat.mod_lt _ (by decide)
  have length : (feed.push event).events.length = feed.events.length + 1 := by
    rw [Feed.push, length_append]
    rfl
  rw [TapRing.push]
  rw [if_pos inBounds]
  refine ⟨_, _, rfl, ?_, ?_, ?_, ?_, ?_, ?_⟩
  · rw [holds.head, length]
    exact (BitVec.ofNat_add _ _).symm
  · rw [length]
    exact next_index holds.writeIndex
  · have residentLen := holds.residentLen
    rw [length]
    show (if ring.state.residentLen.toNat = tapEvents then ring.state.residentLen
      else ring.state.residentLen + 1).toNat = _
    rw [tapEvents_eq] at residentLen ⊢
    by_cases full : ring.state.residentLen.toNat = 21
    · rw [if_pos full]
      omega
    · rw [if_neg full, UInt8.toNat_add, residentLen]
      show (min feed.events.length 21 + 1) % 256 = _
      omega
  · have isLast : ring.head = BitVec.allOnes width ↔
        feed.events.length % 2 ^ width = 2 ^ width - 1 := by
      rw [← BitVec.toNat_inj, holds.head, BitVec.toNat_ofNat, BitVec.toNat_allOnes]
    rw [length]
    show (if ring.head = BitVec.allOnes width then .wrapped else ring.state.headEra) = _ ↔ _
    by_cases last : ring.head = BitVec.allOnes width
    · rw [if_pos last]
      rw [isLast] at last
      refine ⟨fun _ => ?_, fun _ => rfl⟩
      have le := Nat.mod_le feed.events.length (2 ^ width)
      omega
    · rw [if_neg last, holds.headEra]
      rw [isLast] at last
      constructor
      · exact fun le => le.trans (Nat.le_succ _)
      · intro le
        by_contra small
        rw [Nat.mod_eq_of_lt (by omega)] at last
        omega
  · rw [length_set]
    exact holds.slots
  · intro number other resident isOther
    rw [Feed.oldest, length, tapEvents_eq] at resident
    rw [holds.writeIndex]
    rcases Nat.lt_or_ge number feed.events.length with old | new
    · have isOld : feed.events[number]? = some other := by
        rw [← isOther, Feed.push, getElem?_append_left old]
      have differs : feed.events.length % tapEvents ≠ number % tapEvents := by
        rw [tapEvents_eq]
        omega
      rw [getElem?_set_ne differs]
      refine holds.records number other ?_ isOld
      rw [Feed.oldest, tapEvents_eq]
      omega
    · have inEvents := (List.getElem?_eq_some_iff.mp isOther).1
      rw [length] at inEvents
      have isLast : number = feed.events.length := by omega
      subst isLast
      rw [Feed.push, getElem?_concat_length, Option.some.injEq] at isOther
      subst isOther
      rw [holds.writeIndex] at inBounds
      exact getElem?_set_self inBounds

theorem TapRing.Holds.checkpoint (holds : ring.Holds feed) (wide : 32 ≤ width) :
    (feed.events.length < 2 ^ 32 - 1 → ring.checkpoint.map UInt32.toNat = some feed.events.length) ∧
      (2 ^ 32 - 1 ≤ feed.events.length → ring.checkpoint = none) := by
  obtain ⟨either, exact⟩ := timestamp_spec holds wide (le_refl feed.events.length)
  rw [← holds.head] at either exact
  have max : ordinalMax.toNat = 2 ^ 32 - 1 := rfl
  rw [TapRing.checkpoint]
  constructor
  · intro few
    have isExact := exact (by omega)
    have notMax : timestamp ring.head ring.state.headEra ≠ ordinalMax := by
      intro isMax
      rw [isMax] at isExact
      omega
    rw [if_pos notMax, Option.map_some, isExact]
  · intro many
    have isMax : timestamp ring.head ring.state.headEra = ordinalMax := by
      rcases either with isExact | isMax
      · apply UInt32.toNat_inj.mp
        have bound := (timestamp ring.head ring.state.headEra).toNat_lt
        omega
      · exact isMax
    rw [if_neg (not_not.mpr isMax)]

end Reads

/-! ### Histories -/

namespace Tap

variable {width : Nat}

/-- A ring in step with its feed. -/
structure Keeps (tap : Tap width) : Prop where
  holds : tap.ring.Holds tap.feed
  count : tap.ports.length = tap.feed.readers.length
  tracks : ∀ (index : Nat) (port : RingPort width) (reader : Reader),
    tap.ports[index]? = some port → tap.feed.readers[index]? = some reader →
    port.Tracks tap.feed reader

variable {storage : List TapRecord}

theorem new_keeps (slots : storage.length = tapEvents) : (new width storage).Keeps where
  holds := {
    head := rfl
    writeIndex := rfl
    residentLen := rfl
    headEra := by
      constructor
      · intro era
        cases era
      · exact fun le => absurd le (Nat.two_pow_pos width).not_ge
    slots := slots
    records := nofun }
  count := rfl
  tracks := nofun

namespace Keeps

variable {tap : Tap width}

theorem push (keeps : tap.Keeps) (wide : 32 ≤ width) (event : TapEvent) :
    ∃ reply next, tap.perform (.push event) = .ok (reply, next) ∧
      Answers tap.feed (.push event) reply ∧ next.Keeps := by
  obtain ⟨observed, ring, isOk, holds⟩ := keeps.holds.push wide event
  refine ⟨.pushed observed, { tap with ring, feed := tap.feed.push event }, ?_, trivial, holds,
    keeps.count, ?_⟩
  · rw [perform, isOk]
    rfl
  · exact fun index port reader isPort isReader =>
      (keeps.tracks index port reader isPort isReader).push event

theorem addPort (keeps : tap.Keeps) :
    ∃ reply next, tap.perform .port = .ok (reply, next) ∧ Answers tap.feed .port reply ∧
      next.Keeps := by
  refine ⟨_, _, rfl, trivial, ?_, ?_, ?_⟩
  · exact { keeps.holds with }
  · show (tap.ports ++ [_]).length = (tap.feed.readers ++ [_]).length
    rw [length_append, length_append, keeps.count]
    rfl
  · intro index port reader isPort isReader
    rcases Nat.lt_or_ge index tap.ports.length with old | new
    · rw [show (tap.ports ++ [tap.ring.port])[index]? = tap.ports[index]? from
        getElem?_append_left old] at isPort
      rw [show tap.feed.addReader.readers[index]? = tap.feed.readers[index]? from
        getElem?_append_left (keeps.count ▸ old)] at isReader
      have tracks := keeps.tracks index port reader isPort isReader
      exact { tracks with }
    · have isLast : index = tap.ports.length := by
        have inBounds := (List.getElem?_eq_some_iff.mp isPort).1
        rw [length_append, length_singleton] at inBounds
        omega
      subst isLast
      rw [show (tap.ports ++ [tap.ring.port])[tap.ports.length]? = some tap.ring.port from
        getElem?_concat_length, Option.some.injEq] at isPort
      rw [keeps.count] at isReader
      rw [show tap.feed.addReader.readers[tap.feed.readers.length]? = some ⟨tap.feed.oldest, []⟩
        from getElem?_concat_length, Option.some.injEq] at isReader
      subst isPort isReader
      have tracks := keeps.holds.tracks_port
      exact { tracks with }

/-- A read of one port moves that port and its reader. -/
theorem next (keeps : tap.Keeps) (wide : 32 ≤ width) {index : Nat}
    (admitted : tap.Admits (.next index)) :
    ∃ reply next, tap.perform (.next index) = .ok (reply, next) ∧
      Answers tap.feed (.next index) reply ∧ next.Keeps := by
  obtain ⟨reader, isReader, near⟩ := admitted
  have inBounds : index < tap.ports.length := by
    rw [keeps.count]
    exact (List.getElem?_eq_some_iff.mp isReader).1
  obtain ⟨port, isPort⟩ : ∃ port, tap.ports[index]? = some port :=
    ⟨_, getElem?_eq_getElem inBounds⟩
  have tracks := keeps.tracks index port reader isPort isReader
  have room : tapEvents < 2 ^ width :=
    lt_of_lt_of_le (by decide) (Nat.pow_le_pow_right (by decide) wide : 2 ^ 32 ≤ 2 ^ width)
  -- The other ports stay where they are.
  have moved : ∀ after : RingPort width, after.Tracks tap.feed (tap.feed.read reader) → ({ tap with
        ports := tap.ports.set index after
        feed := { tap.feed with readers := tap.feed.readers.modify index tap.feed.read } } :
        Tap width).Keeps := by
    intro after afterTracks
    refine ⟨{ keeps.holds with }, ?_, ?_⟩
    · rw [length_set, length_modify, keeps.count]
    · intro position other otherReader isOther isOtherReader
      replace isOther : (tap.ports.set index after)[position]? = some other := isOther
      replace isOtherReader :
        (tap.feed.readers.modify index tap.feed.read)[position]? = some otherReader := isOtherReader
      by_cases same : index = position
      · subst same
        rw [getElem?_set_self inBounds, Option.some.injEq] at isOther
        rw [getElem?_modify_eq, isReader] at isOtherReader
        rw [← isOther, ← Option.some.inj isOtherReader]
        exact { afterTracks with }
      · rw [getElem?_set_ne same] at isOther
        rw [getElem?_modify_ne _ _ same] at isOtherReader
        have otherTracks := keeps.tracks position other otherReader isOther isOtherReader
        exact { otherTracks with }
  rw [perform, isPort]
  simp only
  cases isNext : tap.feed.unread reader with
  | none =>
    obtain ⟨after, isOk, afterTracks⟩ := tracks.next_none keeps.holds room near isNext
    have stays : tap.feed.read reader = reader := by
      rw [Feed.read, isNext]
      rfl
    rw [isOk]
    refine ⟨.read none, _, rfl, ?_, moved after (stays.symm ▸ afterTracks)⟩
    exact ⟨reader, isReader, isNext⟩
  | some number =>
    obtain ⟨event, after, isOk, stamped, afterTracks⟩ :=
      tracks.next_some keeps.holds wide near isNext
    have reads : tap.feed.read reader = { reader with yielded := number :: reader.yielded } := by
      rw [Feed.read, isNext]
      rfl
    rw [isOk]
    refine ⟨.read (some event), _, rfl, ?_, moved after (reads.symm ▸ afterTracks)⟩
    exact ⟨reader, number, isReader, isNext, stamped⟩

/-- Every admitted request is answered as the feed says. -/
theorem performs (keeps : tap.Keeps) (wide : 32 ≤ width) {op : TapOp} (admitted : tap.Admits op) :
    ∃ reply next, tap.perform op = .ok (reply, next) ∧ Answers tap.feed op reply ∧ next.Keeps := by
  cases op with
  | push event => exact keeps.push wide event
  | port => exact keeps.addPort
  | next index => exact keeps.next wide admitted
  | checkpoint index => exact ⟨_, _, rfl, keeps.holds.checkpoint wide, keeps⟩

end Keeps

theorem keeps_of_history (wide : 32 ≤ width) (slots : storage.length = tapEvents)
    {visits : List (Visit (Tap width) TapOp TapReply)} {tap : Tap width}
    (history : History (machine width) (new width storage) visits tap) : tap.Keeps := by
  refine history.invariant (new_keeps slots) ?_
  intro state op reply next keeps admitted isOk
  obtain ⟨answer, after, isAnswer, -, afterKeeps⟩ := keeps.performs wide admitted
  cases isOk.symm.trans isAnswer
  exact afterKeeps

/-- Over every history, each port has yielded events in the order of their pushes, each at most
once; a read yields the least event in the ring that is behind all the port has yielded, with the
ordinal of its push, and a checkpoint is the number of pushes while the ordinals last. -/
theorem ports_read_the_feed (wide : 32 ≤ width) {storage : List TapRecord}
    (slots : storage.length = tapEvents) {visits : List (Visit (Tap width) TapOp TapReply)}
    {tap : Tap width} (history : History (machine width) (new width storage) visits tap) :
    (∀ reader ∈ tap.feed.readers, reader.yielded.Pairwise (· > ·)) ∧
    ∀ op, tap.Admits op → ∃ reply next, tap.perform op = .ok (reply, next) ∧
      Answers tap.feed op reply := by
  have keeps := keeps_of_history wide slots history
  constructor
  · intro reader mem
    obtain ⟨index, isReader⟩ := mem_iff_getElem?.mp mem
    have inBounds : index < tap.ports.length := by
      rw [keeps.count]
      exact (List.getElem?_eq_some_iff.mp isReader).1
    exact (keeps.tracks index _ reader (getElem?_eq_getElem inBounds) isReader).inOrder
  · intro op admitted
    obtain ⟨reply, next, isOk, answers, -⟩ := keeps.performs wide admitted
    exact ⟨reply, next, isOk, answers⟩

instance (tap : Tap width) : DecidablePred tap.Admits
  | .push _ | .port => .isTrue trivial
  | .next port => inferInstanceAs (Decidable (∃ reader ∈ tap.feed.readers[port]?, _))
  | .checkpoint port => inferInstanceAs (Decidable (port < tap.ports.length))

/-- Two more events are pushed than the ring has slots, so a port reads the third one first. The
next event overwrites it, and a second port starts with the fourth one. -/
theorem ports_read_the_feed_overwritten :
    ∃ visits tap, History (machine 32) (new 32 (List.replicate tapEvents ⟨Vector.replicate 12 0⟩))
        visits tap ∧
      tap.feed.readers.map Reader.yielded = [[3, 2], [3]] ∧
      (∀ reader ∈ tap.feed.readers, reader.yielded.Pairwise (· > ·)) ∧
      ∃ reply next, tap.perform (.next 0) = .ok (reply, next) ∧
        Answers tap.feed (.next 0) reply := by
  have run : (do
      let (_, tap) ← play perform (fun tap op => decide (tap.Admits op))
        (new 32 (List.replicate tapEvents ⟨Vector.replicate 12 0⟩))
        (.port :: .append (.replicate (tapEvents + 2) (.push ⟨0, 7, 8, 9, 10⟩))
          [.next 0, .push ⟨0, 7, 8, 9, 10⟩, .port, .next 1, .next 0])
      return (tap.feed.readers.map Reader.yielded, decide (tap.Admits (.next 0)))) =
        .ok ([[3, 2], [3]], true) := by
    decide +kernel
  obtain ⟨⟨visits, tap⟩, isPlayed, run⟩ := Run.of_bind run
  obtain ⟨isYielded, admitted⟩ := Prod.mk.inj (Except.ok.inj run)
  obtain ⟨history, _⟩ := History.of_play (machine 32)
    (fun tap op => of_decide_eq_true (p := tap.Admits op)) isPlayed
  obtain ⟨inOrder, answers⟩ := ports_read_the_feed (by decide) rfl history
  exact ⟨visits, tap, history, isYielded, inOrder, answers (.next 0) (of_decide_eq_true admitted)⟩

end Tap

end Hibana
