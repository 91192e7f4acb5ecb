/-
This file models the association table of a rendezvous,
`rendezvous/association.rs` with its `storage.rs` and `fault.rs`, and its callers
for lanes, `rendezvous/core/{access_port,lane_lifecycle}.rs`.

The table holds one entry for every session on a lane: the session, the offset of
the lane and a state, which packs the number of attachments and the fault of the
session. The entries lie in three columns of one storage block, which grows into
another block, shrinks in place and is moved by its owner.
-/

import HibanaChoreography.Library.ByteMemory
import HibanaChoreography.Rendezvous.Layout

namespace Hibana

open Outcome ByteMemory

/-! ### Faults and packed states -/

inductive SessionFaultKind where
  | transportClosed
  | decodeFailed
  | protocolViolation
  | endpointDropped
  | progressInvariantViolated
  deriving DecidableEq, Repr

namespace SessionFaultKind

def absentCode : UInt16 := 0

def encode : SessionFaultKind → UInt16
  | transportClosed => 1
  | decodeFailed => 2
  | protocolViolation => 3
  | endpointDropped => 4
  | progressInvariantViolated => 5

/-- The fault of a code; the outer option rejects codes of no fault. -/
def tryDecode (raw : UInt16) : Option (Option SessionFaultKind) :=
  match raw.toNat with
  | 0 => some none
  | 1 => some (some transportClosed)
  | 2 => some (some decodeFailed)
  | 3 => some (some protocolViolation)
  | 4 => some (some endpointDropped)
  | 5 => some (some progressInvariantViolated)
  | _ => none

def decode (raw : UInt16) : Run (Option SessionFaultKind) :=
  match tryDecode raw with
  | some fault => .ok fault
  | none => .error .invariant

end SessionFaultKind

/-- An entry of the table: its session, the offset of its lane and its packed state. -/
structure AssocEntry where
  sid : UInt32
  lane : UInt8
  state : UInt16
  deriving DecidableEq, Repr

namespace AssocEntry

def countMax : Nat := 256

/-- The number of attachments of a packed state. -/
def count (raw : UInt16) : UInt16 := raw &&& 511

def faultCode (raw : UInt16) : UInt16 := raw >>> 9

def fault (raw : UInt16) : Run (Option SessionFaultKind) := SessionFaultKind.decode (faultCode raw)

def packState (count faultCode : UInt16) : Run UInt16 :=
  if countMax < count.toNat ∨ 127 < faultCode.toNat then .error .invariant
  else .ok ((faultCode <<< 9) ||| count)

def emptyState : UInt16 := 0

def liveState : UInt16 := 1

def empty : AssocEntry := ⟨0, 0, emptyState⟩

def isLive (entry : AssocEntry) : Bool := count entry.state ≠ 0

end AssocEntry

def nextAttachmentCount (current : UInt16) : Run (Option UInt16) :=
  if current = 0 ∨ AssocEntry.countMax < current.toNat then .error .invariant
  else if current.toNat = AssocEntry.countMax then .ok none
  else .ok (some (current + 1))

/-! ### The table -/

/-- The range of lanes, the number of entries, and the addresses of the three columns; a table
without storage has null columns. -/
structure AssocTable where
  laneBase : Nat
  laneSlots : Nat
  assocSlots : Nat
  entrySids : Nat
  entryLanes : Nat
  entryStates : Nat
  deriving DecidableEq, Repr

namespace AssocTable

def initEmpty : AssocTable := ⟨0, 0, 0, 0, 0, 0⟩

def isBound (table : AssocTable) : Bool := table.entrySids ≠ 0

def entryAt (table : AssocTable) (memory : Memory) (index : Nat) : AssocEntry where
  sid := read word memory (table.entrySids + index * word.size)
  lane := read byte memory (table.entryLanes + index * byte.size)
  state := read halfword memory (table.entryStates + index * halfword.size)

/-- The entries of the table, in the order in which its scans visit them. -/
def entries (table : AssocTable) (memory : Memory) : List AssocEntry :=
  (List.range table.assocSlots).map (table.entryAt memory)

def writeState (table : AssocTable) (memory : Memory) (index : Nat) (state : UInt16) : Memory :=
  write halfword memory (table.entryStates + index * halfword.size) state

def writeEntry (table : AssocTable) (memory : Memory) (index : Nat) (entry : AssocEntry) :
    Memory :=
  let memory := write byte memory (table.entryLanes + index * byte.size) entry.lane
  let memory := write word memory (table.entrySids + index * word.size) entry.sid
  table.writeState memory index entry.state

/-- The offset of a lane in the range of the table. It is a byte, as the lane is. -/
def laneOffset (table : AssocTable) (lane : UInt8) : Option UInt8 :=
  if lane.toNat < table.laneBase then none
  else if table.laneSlots ≤ lane.toNat - table.laneBase then none
  else some (UInt8.ofNat (lane.toNat - table.laneBase))

def findEntryByOffset (table : AssocTable) (memory : Memory) (laneOffset : UInt8) (sid : UInt32) :
    Option Nat :=
  (table.entries memory).findIdx? fun entry =>
    entry.isLive ∧ entry.lane = laneOffset ∧ entry.sid = sid

def activeEntryCount (table : AssocTable) (memory : Memory) : Nat :=
  (table.entries memory).countP AssocEntry.isLive

def activeLaneSlots (table : AssocTable) (memory : Memory) : Nat :=
  ((table.entries memory).filter AssocEntry.isLive).foldl
    (fun required entry => max required (entry.lane.toNat + 1)) 0

def shrinkLaneSlots (table : AssocTable) (memory : Memory) (required : Nat) : Run AssocTable :=
  if table.laneSlots < required ∨ required < table.activeLaneSlots memory ∨ 65535 < required then
    .error .invariant
  else .ok { table with laneSlots := required }

def hasEntry (table : AssocTable) (memory : Memory) (lane : UInt8) (sid : UInt32) : Bool :=
  match table.laneOffset lane with
  | none => false
  | some offset => (table.findEntryByOffset memory offset sid).isSome

/-- Take an empty entry for a session on a lane; there may be none. -/
def register (table : AssocTable) (memory : Memory) (lane : UInt8) (sid : UInt32) :
    Run (Bool × Memory) :=
  match table.laneOffset lane with
  | none => .error .invariant
  | some offset =>
    if (table.findEntryByOffset memory offset sid).isSome then .error .invariant
    else
      match (table.entries memory).findIdx? fun entry => !entry.isLive with
      | none => .ok (false, memory)
      | some index =>
        .ok (true, table.writeEntry memory index ⟨sid, offset, AssocEntry.liveState⟩)

/-- The index of the entry of a session on a lane, which must be there. -/
def entryIndex (table : AssocTable) (memory : Memory) (lane : UInt8) (sid : UInt32) : Run Nat :=
  match table.laneOffset lane with
  | none => .error .invariant
  | some offset =>
    match table.findEntryByOffset memory offset sid with
    | none => .error .invariant
    | some index => .ok index

/-- Count one more attachment, unless the count is full. -/
def increment (table : AssocTable) (memory : Memory) (lane : UInt8) (sid : UInt32) :
    Run (Option UInt16 × Memory) := do
  let index ← table.entryIndex memory lane sid
  let raw := (table.entryAt memory index).state
  match ← nextAttachmentCount (AssocEntry.count raw) with
  | none => return (none, memory)
  | some next =>
    let state ← AssocEntry.packState next (AssocEntry.faultCode raw)
    return (some next, table.writeState memory index state)

/-- Remove an entry: the last live entry moves into its place. -/
def removeEntry (table : AssocTable) (memory : Memory) (index : Nat) : Run Memory :=
  if table.assocSlots ≤ index then .error .invariant
  else
    match (List.range table.assocSlots).reverse.find? fun other =>
      (table.entryAt memory other).isLive with
    | none => .error .invariant
    | some last =>
      let memory :=
        if last = index then memory
        else table.writeEntry memory index (table.entryAt memory last)
      .ok (table.writeEntry memory last AssocEntry.empty)

/-- Count one attachment less, and remove the entry with the last one. -/
def decrement (table : AssocTable) (memory : Memory) (lane : UInt8) (sid : UInt32) :
    Run (UInt16 × Memory) := do
  let index ← table.entryIndex memory lane sid
  let raw := (table.entryAt memory index).state
  if AssocEntry.count raw = 0 then .error .invariant
  else
    let next := AssocEntry.count raw - 1
    if next = 0 then
      let memory ← table.removeEntry memory index
      return (next, memory)
    else
      let state ← AssocEntry.packState next (AssocEntry.faultCode raw)
      return (next, table.writeState memory index state)

def sessionFault (table : AssocTable) (memory : Memory) (sid : UInt32) :
    Run (Option SessionFaultKind) :=
  (table.entries memory).findSomeM? fun entry =>
    if entry.isLive ∧ entry.sid = sid then AssocEntry.fault entry.state else .ok none

/-- Write the fault of a session into one of its entries. -/
def poisonEntry (table : AssocTable) (sid : UInt32) (cause : SessionFaultKind) (memory : Memory)
    (index : Nat) : Run Memory :=
  let entry := table.entryAt memory index
  if entry.isLive ∧ entry.sid = sid then do
    let state ← AssocEntry.packState (AssocEntry.count entry.state) cause.encode
    return table.writeState memory index state
  else .ok memory

/-- Fault a session, unless it has a fault already; the fault of the session is returned. -/
def poisonSession (table : AssocTable) (memory : Memory) (sid : UInt32) (cause : SessionFaultKind) :
    Run (SessionFaultKind × Memory) := do
  match ← table.sessionFault memory sid with
  | some existing => return (existing, memory)
  | none =>
    let memory ← (List.range table.assocSlots).foldlM (table.poisonEntry sid cause) memory
    return (cause, memory)

/-! ### Storage -/

section Storage

variable (usizeMax : Nat)

def storageAlign : Nat := 4

def storageBytes (assocSlots : Nat) : Run Nat := do
  let sidBytes ← Layout.mul usizeMax assocSlots word.size
  let laneOffset ← Layout.alignUp usizeMax sidBytes 1
  let laneBytes ← Layout.mul usizeMax assocSlots byte.size
  let stateOffset ← Layout.alignUp usizeMax (← Layout.add usizeMax laneOffset laneBytes) 2
  let stateBytes ← Layout.mul usizeMax assocSlots halfword.size
  Layout.add usizeMax stateOffset stateBytes

/-- The addresses of the columns in a storage block. -/
structure AssocStorageParts where
  entrySids : Nat
  entryLanes : Nat
  entryStates : Nat
  deriving DecidableEq, Repr

def storageParts (storage assocSlots : Nat) : Run AssocStorageParts := do
  let sidBytes ← Layout.mul usizeMax assocSlots word.size
  let laneOffset ← Layout.sub
    (← Layout.alignUp usizeMax (← Layout.add usizeMax storage sidBytes) 1) storage
  let laneBytes ← Layout.mul usizeMax assocSlots byte.size
  let laneEnd ← Layout.add usizeMax (← Layout.add usizeMax storage laneOffset) laneBytes
  let stateOffset ← Layout.sub (← Layout.alignUp usizeMax laneEnd 2) storage
  return ⟨storage, storage + laneOffset, storage + stateOffset⟩

/-- Publish columns and their shape. -/
def publish (laneBase laneSlots assocSlots : Nat) (parts : AssocStorageParts) : Run AssocTable :=
  if 65535 < laneSlots ∨ 65535 < assocSlots then .error .invariant
  else .ok ⟨laneBase, laneSlots, assocSlots, parts.entrySids, parts.entryLanes, parts.entryStates⟩

/-- Write empty entries into fresh columns. -/
def clearEntries (parts : AssocStorageParts) (memory : Memory) (assocSlots : Nat) : Memory :=
  (List.range assocSlots).foldl
    (writeEntry ⟨0, 0, assocSlots, parts.entrySids, parts.entryLanes, parts.entryStates⟩ · ·
      AssocEntry.empty) memory

/-- The first storage of a table. -/
def bindFromStorage (memory : Memory) (storage laneBase laneSlots assocSlots : Nat) :
    Run (AssocTable × Memory) := do
  let parts ← storageParts usizeMax storage assocSlots
  let table ← publish laneBase laneSlots assocSlots parts
  return (table, clearEntries parts memory assocSlots)

/-- Copy the live entries of the source into the replacement, from its first entry on. -/
def copyEntries (source : AssocTable) (replacement : AssocTable) :
    List Nat → Nat → Memory → Run Memory
  | [], _, memory => .ok memory
  | index :: rest, target, memory =>
    let entry := source.entryAt memory index
    if ¬ entry.isLive then copyEntries source replacement rest target memory
    else
      let lane := source.laneBase + entry.lane.toNat
      if lane < replacement.laneBase then .error .invariant
      else
        let offset := lane - replacement.laneBase
        if replacement.laneSlots ≤ offset ∨ 255 < offset ∨ replacement.assocSlots ≤ target then
          .error .invariant
        else
          copyEntries source replacement rest (target + 1)
            (replacement.writeEntry memory target { entry with lane := UInt8.ofNat offset })

/-- Fill a replacement block, which is not published yet. -/
def initReplacementStorage (table : AssocTable) (memory : Memory)
    (storage laneBase laneSlots assocSlots : Nat) : Run Memory := do
  let parts ← storageParts usizeMax storage assocSlots
  copyEntries table
    ⟨laneBase, laneSlots, assocSlots, parts.entrySids, parts.entryLanes, parts.entryStates⟩
    (List.range table.assocSlots) 0 (clearEntries parts memory assocSlots)

def commitStorage (storage laneBase laneSlots assocSlots : Nat) : Run AssocTable := do
  let parts ← storageParts usizeMax storage assocSlots
  publish laneBase laneSlots assocSlots parts

/-- The owner has moved the storage block: compute its columns again. -/
def relocateStorage (table : AssocTable) (storage : Nat) : Run AssocTable :=
  commitStorage usizeMax storage table.laneBase table.laneSlots table.assocSlots

/-- Keep fewer entries in the same block; the columns behind the first move towards it. -/
def shrinkStorageInPlace (table : AssocTable) (memory : Memory) (storage assocSlots : Nat) :
    Run (AssocTable × Memory) :=
  let activeSlots := table.activeEntryCount memory
  if assocSlots = 0 ∨ table.assocSlots ≤ assocSlots ∨ assocSlots < activeSlots then
    .error .invariant
  else if (List.range table.assocSlots).any fun index =>
      decide (index < activeSlots) != (table.entryAt memory index).isLive then .error .invariant
  else do
    let parts ← storageParts usizeMax storage assocSlots
    let memory := copy memory table.entryLanes parts.entryLanes (assocSlots * byte.size)
    let memory := copy memory table.entryStates parts.entryStates (assocSlots * halfword.size)
    return (⟨table.laneBase, table.laneSlots, assocSlots, parts.entrySids, parts.entryLanes,
      parts.entryStates⟩, memory)

def clearStorage (table : AssocTable) (memory : Memory) : Run AssocTable :=
  if table.activeEntryCount memory ≠ 0 then .error .invariant else .ok initEmpty

end Storage

end AssocTable

/-! ### The lanes of a rendezvous -/

/-- `LaneBusy` of the source is never returned by the functions below. -/
inductive RendezvousError where
  | laneOutOfRange (lane : UInt8)
  | laneAttachOverflow (lane : UInt8)
  | sessionPoisoned (sid : UInt32)
  deriving DecidableEq, Repr

inductive LaneRelease where
  | stillHeld
  | released
  deriving DecidableEq, Repr

/-- The memory of a rendezvous, its association table and its range of lanes. -/
structure LaneStore where
  memory : Memory
  assoc : AssocTable
  laneBase : Nat
  laneEnd : Nat

namespace LaneStore

def sessionFault (store : LaneStore) (sid : UInt32) : Run (Option SessionFaultKind) :=
  store.assoc.sessionFault store.memory sid

def activateLaneAttachment (store : LaneStore) (sid : UInt32) (lane : UInt8) :
    Run (Except RendezvousError Unit × LaneStore) :=
  if lane.toNat < store.laneBase ∨ store.laneEnd ≤ lane.toNat then
    .ok (.error (.laneOutOfRange lane), store)
  else do
    if (← store.sessionFault sid).isSome then
      return (.error (.sessionPoisoned sid), store)
    else if store.assoc.hasEntry store.memory lane sid then
      match ← store.assoc.increment store.memory lane sid with
      | (none, memory) => return (.error (.laneAttachOverflow lane), { store with memory })
      | (some _, memory) => return (.ok (), { store with memory })
    else
      match ← store.assoc.register store.memory lane sid with
      | (false, memory) => return (.error (.laneAttachOverflow lane), { store with memory })
      | (true, memory) => return (.ok (), { store with memory })

def poisonSession (store : LaneStore) (sid : UInt32) (cause : SessionFaultKind) :
    Run (SessionFaultKind × LaneStore) := do
  let (kind, memory) ← store.assoc.poisonSession store.memory sid cause
  return (kind, { store with memory })

def releaseLane (store : LaneStore) (sid : UInt32) (lane : UInt8) :
    Run (LaneRelease × LaneStore) := do
  let (remaining, memory) ← store.assoc.decrement store.memory lane sid
  return (if 0 < remaining.toNat then .stillHeld else .released, { store with memory })

def laneSlotCount (store : LaneStore) : Run Nat :=
  if store.laneEnd < store.laneBase then .error .invariant
  else .ok (store.laneEnd - store.laneBase)

/-- The part of `ensure_lane_storage` behind the lease of a block: bind it, or fill it and commit
it as the new storage. -/
def installLaneStorage (usizeMax : Nat) (store : LaneStore)
    (storage laneSlots assocSlots : Nat) : Run LaneStore := do
  let laneEnd := store.laneBase + laneSlots
  if store.assoc.isBound then
    let memory ← store.assoc.initReplacementStorage usizeMax store.memory storage store.laneBase
      laneSlots assocSlots
    let assoc ← AssocTable.commitStorage usizeMax storage store.laneBase laneSlots assocSlots
    return { store with memory, assoc, laneEnd }
  else
    let (assoc, memory) ← AssocTable.bindFromStorage usizeMax store.memory storage store.laneBase
      laneSlots assocSlots
    return { store with memory, assoc, laneEnd }

/-- Shrink the table in its block. -/
def shrinkInPlace (usizeMax : Nat) (store : LaneStore) (storage assocSlots : Nat) :
    Run LaneStore := do
  let (assoc, memory) ← store.assoc.shrinkStorageInPlace usizeMax store.memory storage assocSlots
  return { store with memory, assoc }

def clearAssoc (store : LaneStore) : Run LaneStore := do
  let assoc ← store.assoc.clearStorage store.memory
  return { store with assoc }

/-- The block of the table has moved. -/
def relocateAssoc (usizeMax : Nat) (store : LaneStore) (storage : Nat) : Run LaneStore := do
  let assoc ← store.assoc.relocateStorage usizeMax storage
  return { store with assoc }

/-- The part of `shrink_assoc_table_capacity` about the table in its block. -/
def shrinkAssocTable (usizeMax : Nat) (store : LaneStore) (storage required : Nat) :
    Run LaneStore :=
  if store.assoc.assocSlots < required then .error .invariant
  else if required = store.assoc.assocSlots then .ok store
  else if required = 0 then store.clearAssoc
  else store.shrinkInPlace usizeMax storage required

def shrinkLaneRange (store : LaneStore) (required : Nat) : Run LaneStore := do
  if (← store.laneSlotCount) < required then .error .invariant
  else if store.assoc.isBound then
    let assoc ← store.assoc.shrinkLaneSlots store.memory required
    return { store with assoc, laneEnd := store.laneBase + required }
  else if required ≠ 0 then .error .invariant
  else return { store with laneEnd := store.laneBase + required }

end LaneStore

end Hibana
