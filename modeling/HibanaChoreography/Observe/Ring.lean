/-
This file has the ring of diagnostic events of a rendezvous.

The ring keeps the last events in as many slots as fit the byte budget. The producer
counts its pushes in a machine word that wraps, and has the index of the slot it writes
next beside it. A port reads the ring from a cursor of its own, again a machine word and
an index of a slot; a port that has fallen behind goes on with the oldest event that is
still in the ring. The word has `width` bits.
-/

import HibanaChoreography.Library.Run
import Mathlib.Data.BitVec

namespace Hibana

open Outcome

/-! ### Events and records -/

structure TapEvent where
  ts : UInt32
  id : UInt16
  causalKey : UInt16
  arg0 : UInt32
  arg1 : UInt32
  deriving DecidableEq, Repr

/-- The resident form of an event, without its time stamp. -/
structure TapRecord where
  bytes : Vector UInt8 12
  deriving DecidableEq

namespace TapRecord

def byteLen : Nat := 12

def fromEvent (event : TapEvent) : TapRecord :=
  ⟨⟨#[(event.id >>> 8).toUInt8, event.id.toUInt8,
    (event.causalKey >>> 8).toUInt8, event.causalKey.toUInt8,
    (event.arg0 >>> 24).toUInt8, (event.arg0 >>> 16).toUInt8, (event.arg0 >>> 8).toUInt8,
    event.arg0.toUInt8,
    (event.arg1 >>> 24).toUInt8, (event.arg1 >>> 16).toUInt8, (event.arg1 >>> 8).toUInt8,
    event.arg1.toUInt8], rfl⟩⟩

def halfword (high low : UInt8) : UInt16 :=
  UInt16.ofNat (high.toNat * 2 ^ 8 + low.toNat)

def word (first second third fourth : UInt8) : UInt32 :=
  UInt32.ofNat (first.toNat * 2 ^ 24 + second.toNat * 2 ^ 16 + third.toNat * 2 ^ 8 + fourth.toNat)

def toEvent (record : TapRecord) (timestamp : UInt32) : TapEvent :=
  let bytes := record.bytes
  ⟨timestamp, halfword bytes[0] bytes[1], halfword bytes[2] bytes[3],
    word bytes[4] bytes[5] bytes[6] bytes[7], word bytes[8] bytes[9] bytes[10] bytes[11]⟩

theorem halfword_bytes (value : UInt16) : halfword (value >>> 8).toUInt8 value.toUInt8 = value := by
  apply UInt16.toNat_inj.mp
  have bound := value.toNat_lt
  have high : (value >>> 8).toUInt8.toNat = value.toNat / 2 ^ 8 % 2 ^ 8 := by
    simp [Nat.shiftRight_eq_div_pow]
  have low : value.toUInt8.toNat = value.toNat % 2 ^ 8 := by simp
  rw [halfword, UInt16.toNat_ofNat', high, low]
  omega

theorem word_bytes (value : UInt32) :
    word (value >>> 24).toUInt8 (value >>> 16).toUInt8 (value >>> 8).toUInt8 value.toUInt8 =
      value := by
  apply UInt32.toNat_inj.mp
  have bound := value.toNat_lt
  have first : (value >>> 24).toUInt8.toNat = value.toNat / 2 ^ 24 % 2 ^ 8 := by
    simp [Nat.shiftRight_eq_div_pow]
  have second : (value >>> 16).toUInt8.toNat = value.toNat / 2 ^ 16 % 2 ^ 8 := by
    simp [Nat.shiftRight_eq_div_pow]
  have third : (value >>> 8).toUInt8.toNat = value.toNat / 2 ^ 8 % 2 ^ 8 := by
    simp [Nat.shiftRight_eq_div_pow]
  have fourth : value.toUInt8.toNat = value.toNat % 2 ^ 8 := by simp
  rw [word, UInt32.toNat_ofNat', first, second, third, fourth]
  omega

/-- A record has everything of its event but the time stamp. -/
theorem toEvent_fromEvent (event : TapEvent) (timestamp : UInt32) :
    (fromEvent event).toEvent timestamp = { event with ts := timestamp } := by
  rw [TapEvent.mk.injEq]
  exact ⟨rfl, halfword_bytes _, halfword_bytes _, word_bytes _, word_bytes _⟩

end TapRecord

def tapResidentByteLimit : Nat := 256

def tapEvents : Nat := tapResidentByteLimit / TapRecord.byteLen

/-! ### The state of the ring -/

/-- Whether the counter of the producer has wrapped. -/
inductive HeadEra where
  | initial
  | wrapped
  deriving DecidableEq, Repr

structure RingState where
  writeIndex : UInt8
  residentLen : UInt8
  headEra : HeadEra
  deriving DecidableEq, Repr

namespace RingState

def empty : RingState := ⟨0, 0, .initial⟩

def afterPush {width : Nat} (state : RingState) (head : BitVec width) : RingState where
  writeIndex := if state.writeIndex.toNat + 1 = tapEvents then 0 else state.writeIndex + 1
  residentLen :=
    if state.residentLen.toNat = tapEvents then state.residentLen else state.residentLen + 1
  headEra := if head = BitVec.allOnes width then .wrapped else state.headEra

def oldestIndex (state : RingState) : UInt8 :=
  UInt8.ofNat
    ((state.writeIndex.toNat + tapEvents - state.residentLen.toNat) % tapEvents)

end RingState

def ordinalMax : UInt32 := 4294967295

def timestamp {width : Nat} (ordinal : BitVec width) (headEra : HeadEra) : UInt32 :=
  if headEra = .wrapped ∨ ordinal.toNat > ordinalMax.toNat then ordinalMax
  else UInt32.ofNat ordinal.toNat

/-- The ring of a producer. -/
structure TapRing (width : Nat) where
  head : BitVec width
  state : RingState
  storage : List TapRecord

/-- A reader of the ring. -/
structure RingPort (width : Nat) where
  cursor : BitVec width
  index : UInt8
  deriving DecidableEq

namespace TapRing

variable {width : Nat}

def fromStorage (width : Nat) (storage : List TapRecord) : TapRing width :=
  ⟨0, .empty, storage⟩

/-- Append an event. An observer sees it with its ordinal. A write outside of the storage is a
fault. -/
def push (ring : TapRing width) (event : TapEvent) : Run (TapEvent × TapRing width) :=
  let index := ring.state.writeIndex.toNat
  if index < ring.storage.length then
    let record := TapRecord.fromEvent event
    .ok (record.toEvent (timestamp ring.head ring.state.headEra),
      { head := ring.head + 1
        state := ring.state.afterPush ring.head
        storage := ring.storage.set index record })
  else .error .invariant

def port (ring : TapRing width) : RingPort width :=
  ⟨ring.head - BitVec.ofNat width ring.state.residentLen.toNat, ring.state.oldestIndex⟩

end TapRing

namespace RingPort

variable {width : Nat}

def normalizeCursor (port : RingPort width) (ring : TapRing width) : RingPort width :=
  let distance := ring.head - port.cursor
  if distance.toNat > ring.state.residentLen.toNat ∨
      distance = 0 ∧ port.index ≠ ring.state.writeIndex then
    ring.port
  else port

def advance (port : RingPort width) : RingPort width :=
  ⟨port.cursor + 1, if port.index.toNat + 1 = tapEvents then 0 else port.index + 1⟩

/-- The event at the cursor, or none behind the last one. A read outside of the storage is a
fault. -/
def peek (port : RingPort width) (ring : TapRing width) :
    Run (Option TapEvent × RingPort width) :=
  let port := port.normalizeCursor ring
  if port.cursor = ring.head then .ok (none, port)
  else match ring.storage[port.index.toNat]? with
    | none => .error .invariant
    | some record =>
      .ok (some (record.toEvent (timestamp port.cursor ring.state.headEra)), port)

def next (port : RingPort width) (ring : TapRing width) :
    Run (Option TapEvent × RingPort width) := do
  match ← port.peek ring with
  | (none, port) => return (none, port)
  | (some event, port) => return (some event, port.advance)

end RingPort

/-- The next ordinal of the producer, while there is one. -/
def TapRing.checkpoint {width : Nat} (ring : TapRing width) : Option UInt32 :=
  let ordinal := timestamp ring.head ring.state.headEra
  if ordinal ≠ ordinalMax then some ordinal else none

end Hibana
