/-
This file models the slab of a rendezvous: the blocks of its three tables, which
`rendezvous/core/storage_layout` hands out, compacts and retires.

The tables lie at the low end of the slab, below the image frontier; the endpoint
leases lie above it. A new block is taken from the first gap that fits. A retired
block is not remembered: the live blocks are packed again, in the order that ends
first, by moving their bytes over each other.
-/

import HibanaChoreography.Rendezvous.Association

namespace Hibana

open Outcome ByteMemory

def u32Max : Nat := 4294967295

/-- A block of a table; a table without storage has the empty one. -/
structure Sidecar where
  ptr : Nat
  bytes : Nat
  deriving DecidableEq, Repr

namespace Sidecar

def empty : Sidecar := ⟨0, 0⟩

def fromRawParts (ptr bytes : Nat) : Run Sidecar :=
  if ptr = 0 ∨ bytes = 0 then .error .invariant else .ok ⟨ptr, bytes⟩

def isEmpty (sidecar : Sidecar) : Run Bool :=
  if sidecar.ptr = 0 then
    if sidecar.bytes ≠ 0 then .error .invariant else .ok true
  else
    if sidecar.bytes = 0 then .error .invariant else .ok false

end Sidecar

inductive EndpointLeaseState where
  | vacant
  | reserved
  | published
  | membershipSealed
  deriving DecidableEq, Repr

namespace EndpointLeaseState

def isOccupied (state : EndpointLeaseState) : Bool := state ≠ .vacant

def isPublished (state : EndpointLeaseState) : Bool :=
  state = .published ∨ state = .membershipSealed

def sealMembership : EndpointLeaseState → Option EndpointLeaseState
  | .published | .membershipSealed => some .membershipSealed
  | .vacant | .reserved => none

end EndpointLeaseState

structure EndpointLeaseSlot where
  generation : UInt32
  sid : UInt32
  offset : UInt32
  len : UInt32
  role : UInt8
  state : EndpointLeaseState
  deriving DecidableEq, Repr

namespace EndpointLeaseSlot

def empty : EndpointLeaseSlot := ⟨0, 0, 0, 0, 0, .vacant⟩

def isOccupied (slot : EndpointLeaseSlot) : Bool := slot.state.isOccupied

def isPublished (slot : EndpointLeaseSlot) : Bool := slot.state.isPublished

end EndpointLeaseSlot

/-- How the records of a table lie in memory. The compiler chooses it: a size that is a multiple
of the alignment, and an alignment that is a power of two. -/
structure TableLayout (Value : Type) where
  codec : Codec Value
  align : Nat
  isPower : Layout.isPowerOfTwo align = true
  filled : 0 < codec.size
  divides : align ∣ codec.size

/-- A target: its largest size and the layouts of the records. Keys and resolvers are those of
the resolver table. -/
structure Platform (Key Ref : Type) where
  usizeMax : Nat
  wide : u32Max ≤ usizeMax
  leases : TableLayout EndpointLeaseSlot
  resolvers : TableLayout (Option (Key × Ref))

def EndpointLeaseState.toByte : EndpointLeaseState → UInt8
  | .vacant => 0
  | .reserved => 1
  | .published => 2
  | .membershipSealed => 3

def EndpointLeaseState.ofByte : UInt8 → EndpointLeaseState
  | 0 => .vacant
  | 1 => .reserved
  | 2 => .published
  | _ => .membershipSealed

theorem EndpointLeaseState.ofByte_toByte (state : EndpointLeaseState) :
    ofByte state.toByte = state := by
  cases state <;> rfl

/-- A target of 32 bits: a slot takes twenty bytes, and a resolver twelve. -/
def Platform.narrow : Platform UInt32 UInt32 where
  usizeMax := u32Max
  wide := le_rfl
  leases :=
    ⟨(((word.pair word).pair (word.pair word)).pair (byte.pair (byte.pair halfword))).through
      (fun slot => (((slot.generation, slot.sid), slot.offset, slot.len), slot.role,
        slot.state.toByte, 0))
      (fun ((⟨generation, sid⟩, offset, len), role, state, _) =>
        ⟨generation, sid, offset, len, role, .ofByte state⟩)
      (fun slot => by
        dsimp only
        rw [EndpointLeaseState.ofByte_toByte]), 4, by decide, by decide, by decide⟩
  resolvers :=
    ⟨(word.pair (word.pair word)).through
      (fun entry => entry.elim (0, 0, 0) fun entry => (1, entry.1, entry.2))
      (fun (present, key, resolver) => if present = 0 then none else some (key, resolver))
      (fun entry => by cases entry <;> rfl), 4, by decide, by decide, by decide⟩

inductive ResidentSidecarKind where
  | endpointLeases
  | associations
  | resolvers
  deriving DecidableEq, Repr

structure ResidentSidecar where
  kind : ResidentSidecarKind
  storage : Sidecar
  align : Nat
  deriving DecidableEq, Repr

/-- The storage of a rendezvous. The memory, the association table and the range of lanes are in
`lanes`. -/
structure Rendezvous where
  slabPtr : Nat
  slabLen : Nat
  imageFrontier : Nat
  endpointLeaseGeneration : UInt32
  endpointLeaseStorage : Sidecar
  assocStorage : Sidecar
  resolverStorage : Sidecar
  lanes : LaneStore

namespace Rendezvous

variable {Key Ref : Type} (platform : Platform Key Ref)

/-! ### The records of the leases -/

def slotCountIsRepresentable (slotCount : Nat) : Bool := slotCount - 1 ≤ 65535

/-- The number of records in a block, which must be filled by them. -/
def recordCount {Value : Type} (layout : TableLayout Value) (storage : Sidecar) : Run Nat := do
  if ← storage.isEmpty then return 0
  else if layout.codec.size = 0 ∨ storage.bytes % layout.codec.size ≠ 0 then .error .invariant
  else return storage.bytes / layout.codec.size

def endpointLeaseSlotCount (rv : Rendezvous) : Run Nat := do
  let slots ← recordCount platform.leases rv.endpointLeaseStorage
  if slotCountIsRepresentable slots then return slots else .error .invariant

/-- The slots of the leases, in the order in which scans visit them. -/
def endpointLeaseSlots (rv : Rendezvous) : Run (List EndpointLeaseSlot) := do
  let slotCount ← rv.endpointLeaseSlotCount platform
  return array platform.leases.codec rv.lanes.memory rv.endpointLeaseStorage.ptr slotCount

/-- The lowest offset of a lease, or the end of the slab. -/
def endpointStorageFloor (rv : Rendezvous) : Run Nat := do
  let slots ← rv.endpointLeaseSlots platform
  return slots.foldl (fun floor slot =>
    if slot.isOccupied ∧ slot.len ≠ 0 ∧ slot.offset.toNat < floor then slot.offset.toNat
    else floor) rv.slabLen

/-! ### Live blocks -/

def liveSidecars (rv : Rendezvous) : List ResidentSidecar :=
  [⟨.endpointLeases, rv.endpointLeaseStorage, platform.leases.align⟩,
    ⟨.associations, rv.assocStorage, AssocTable.storageAlign⟩,
    ⟨.resolvers, rv.resolverStorage, platform.resolvers.align⟩]

/-- The offsets of a block in the slab. -/
def sidecarRange (rv : Rendezvous) (sidecar : Sidecar) : Run (Option (Nat × Nat)) := do
  if ← sidecar.isEmpty then return none
  else
    let start ← Layout.sub sidecar.ptr rv.slabPtr
    let stop ← Layout.add platform.usizeMax start sidecar.bytes
    if rv.slabLen < stop then .error .invariant else return some (start, stop)

def packedSidecarRange (base frontier bytes align : Nat) : Run (Option (Nat × Nat)) := do
  match ← Layout.checkedAlignOffset platform.usizeMax base frontier align with
  | none => return none
  | some start =>
    match Layout.checkedAdd platform.usizeMax start bytes with
    | none => return none
    | some stop => return some (start, stop)

/-- The frontier behind the blocks of an order, packed one after the other. -/
def packedFrontier (rv : Rendezvous) : List ResidentSidecar → Nat → Run (Option Nat)
  | [], frontier => return some frontier
  | resident :: rest, frontier => do
    if ← resident.storage.isEmpty then packedFrontier rv rest frontier
    else
      match ← packedSidecarRange platform rv.slabPtr frontier resident.storage.bytes
          resident.align with
      | none => return none
      | some (_, stop) => packedFrontier rv rest stop

/-- The orders of three blocks, as three nested loops visit them. -/
def orders : List ResidentSidecar → List (List ResidentSidecar)
  | [first, second, third] =>
    [[first, second, third], [first, third, second], [second, first, third],
      [second, third, first], [third, first, second], [third, second, first]]
  | _ => []

/-- An order takes the place of the best one so far when it ends before it. -/
def better (order : List ResidentSidecar) (packed : Option Nat)
    (best : Option (List ResidentSidecar × Nat)) : Option (List ResidentSidecar × Nat) :=
  match packed, best with
  | none, best => best
  | some stop, none => some (order, stop)
  | some stop, some (bestSoFar, previous) =>
    some (if stop < previous then (order, stop) else (bestSoFar, previous))

/-- The first of the orders that end lowest. -/
def bestOrder (rv : Rendezvous) : List (List ResidentSidecar) →
    Option (List ResidentSidecar × Nat) → Run (Option (List ResidentSidecar × Nat))
  | [], best => return best
  | order :: rest, best => do
    bestOrder rv rest (better order (← packedFrontier platform rv order 0) best)

def sidecarPackingOrder (rv : Rendezvous) (sidecars : List ResidentSidecar) :
    Run (Option (List ResidentSidecar × Nat)) :=
  rv.bestOrder platform (orders sidecars) none

def packedSidecarFrontier (rv : Rendezvous) (sidecars : List ResidentSidecar) :
    Run (Option Nat) := do
  return (← rv.sidecarPackingOrder platform sidecars).map Prod.snd

/-! ### Compaction -/

def ordered (rv : Rendezvous) (previous candidate : Sidecar) : Run Bool := do
  match ← rv.sidecarRange platform previous, ← rv.sidecarRange platform candidate with
  | some (previousStart, _), some (candidateStart, _) => return previousStart ≤ candidateStart
  | some _, none | none, none => return true
  | none, some _ => return false

/-- Insert a block into the sorted ones before it, which come last first. -/
def insertResident (rv : Rendezvous) (candidate : ResidentSidecar) :
    List ResidentSidecar → Run (List ResidentSidecar)
  | [] => return [candidate]
  | previous :: rest => do
    if ← rv.ordered platform previous.storage candidate.storage then
      return candidate :: previous :: rest
    else return previous :: (← insertResident rv candidate rest)

/-- Sort by place; the empty blocks come last. -/
def sortResidentSidecars (rv : Rendezvous) (sidecars : List ResidentSidecar) :
    Run (List ResidentSidecar) := do
  return (← sidecars.foldlM (fun sorted candidate => rv.insertResident platform candidate sorted)
    []).reverse

/-- Blocks one behind the other, without gaps, from an offset on. -/
def placeFrom (rv : Rendezvous) : List ResidentSidecar → Nat → Run (List ResidentSidecar)
  | [], _ => return []
  | resident :: rest, offset => do
    let storage ← Sidecar.fromRawParts (rv.slabPtr + offset) resident.storage.bytes
    let next ← Layout.add platform.usizeMax offset storage.bytes
    return { resident with storage } :: (← placeFrom rv rest next)

/-- Move the blocks to the low end of the slab, without gaps and in their order. The result has
the moved blocks and the empty ones. -/
def packLeft (rv : Rendezvous) : List ResidentSidecar → Nat → Memory →
    Run ((List ResidentSidecar × List ResidentSidecar) × Memory)
  | [], _, memory => return (([], []), memory)
  | resident :: rest, frontier, memory => do
    match ← rv.sidecarRange platform resident.storage with
    | none =>
      let ((moved, idle), memory) ← packLeft rv rest frontier memory
      return ((moved, resident :: idle), memory)
    | some (sourceStart, _) =>
      if sourceStart < frontier then .error .invariant
      else
        let memory := copy memory resident.storage.ptr (rv.slabPtr + frontier)
          resident.storage.bytes
        let storage ← Sidecar.fromRawParts (rv.slabPtr + frontier) resident.storage.bytes
        let next ← Layout.add platform.usizeMax frontier storage.bytes
        let ((moved, idle), memory) ← packLeft rv rest next memory
        return (({ resident with storage } :: moved, idle), memory)

/-- Bring a block in front of those that stand before it, by a rotation of their bytes. The
result has the block, the others and the memory. -/
def bringForward (rv : Rendezvous) (rest : List ResidentSidecar) (selected : Nat)
    (memory : Memory) : Run (ResidentSidecar × List ResidentSidecar × Memory) :=
  match rest.take selected, rest.drop selected with
  | _, [] => .error .invariant
  | [], resident :: back => return (resident, back, memory)
  | first :: others, resident :: back => do
    match ← rv.sidecarRange platform first.storage,
        ← rv.sidecarRange platform resident.storage with
    | some (start, _), some (_, stop) =>
      let memory := rotateRight memory (rv.slabPtr + start) (rv.slabPtr + stop)
        resident.storage.bytes
      match ← rv.placeFrom platform (resident :: first :: others) start with
      | [] => .error .invariant
      | moved :: between => return (moved, between ++ back, memory)
    | _, _ => .error .invariant

/-- Bring the packed blocks into the wanted order. `settled` are the blocks that have their place
already. -/
def reorder (rv : Rendezvous) : List ResidentSidecar → List ResidentSidecar →
    List ResidentSidecar → Memory → Run (List ResidentSidecar × Memory)
  | [], settled, rest, memory => return (settled ++ rest, memory)
  | desired :: wanted, settled, rest, memory => do
    if ← desired.storage.isEmpty then reorder rv wanted settled rest memory
    else
      match rest.findIdx? fun resident => resident.kind = desired.kind with
      | none => .error .invariant
      | some selected =>
        let (resident, rest, memory) ← rv.bringForward platform rest selected memory
        reorder rv wanted (settled ++ [resident]) rest memory

/-- The packed places of blocks, with gaps for their alignment, and the frontier behind them. -/
def destinations (rv : Rendezvous) : List ResidentSidecar → Nat → Run (List Nat × Nat)
  | [], frontier => return ([], frontier)
  | resident :: rest, frontier => do
    match ← packedSidecarRange platform rv.slabPtr frontier resident.storage.bytes
        resident.align with
    | none => .error .invariant
    | some (start, stop) =>
      let (starts, frontier) ← destinations rv rest stop
      return (start :: starts, frontier)

/-- Move the blocks to their places, the last one first. -/
def spread (rv : Rendezvous) : List (ResidentSidecar × Nat) → Memory →
    Run (List ResidentSidecar × Memory)
  | [], memory => return ([], memory)
  | (resident, destination) :: rest, memory => do
    let (placed, memory) ← spread rv rest memory
    let memory := copy memory resident.storage.ptr (rv.slabPtr + destination)
      resident.storage.bytes
    let storage ← Sidecar.fromRawParts (rv.slabPtr + destination) resident.storage.bytes
    return ({ resident with storage } :: placed, memory)

/-- The owner of a moved block points to its new place. -/
def rebind (rv : Rendezvous) (resident : ResidentSidecar) : Run Rendezvous := do
  if ← resident.storage.isEmpty then return rv
  else
    match resident.kind with
    | .endpointLeases => return { rv with endpointLeaseStorage := resident.storage }
    | .associations =>
      let lanes ← rv.lanes.relocateAssoc platform.usizeMax resident.storage.ptr
      return { rv with lanes, assocStorage := resident.storage }
    | .resolvers =>
      if (← recordCount platform.resolvers resident.storage) ≠
          (← recordCount platform.resolvers rv.resolverStorage) then .error .invariant
      else return { rv with resolverStorage := resident.storage }

/-- The moves of a compaction: the blocks at their new places, the frontier behind them, and the
memory. -/
def moveLiveSidecars (rv : Rendezvous) : Run (List ResidentSidecar × Nat × Memory) := do
  let sidecars := rv.liveSidecars platform
  match ← rv.sidecarPackingOrder platform sidecars with
  | none => .error .invariant
  | some (wanted, optimalEnd) =>
    let sorted ← rv.sortResidentSidecars platform sidecars
    let ((moved, idle), memory) ← rv.packLeft platform sorted 0 rv.lanes.memory
    let (inOrder, memory) ← rv.reorder platform wanted [] moved memory
    let (starts, frontier) ← rv.destinations platform inOrder 0
    if frontier ≠ optimalEnd ∨ rv.imageFrontier < frontier then .error .invariant
    else
      let (placed, memory) ← rv.spread (inOrder.zip starts) memory
      return (placed ++ idle, frontier, memory)

def compactLiveSidecars (rv : Rendezvous) : Run Rendezvous := do
  let (sidecars, frontier, memory) ← rv.moveLiveSidecars platform
  let moved ← sidecars.foldlM (rebind platform) { rv with lanes := { rv.lanes with memory } }
  if (← moved.endpointStorageFloor platform) < frontier ∨ u32Max < frontier then .error .invariant
  else return { moved with imageFrontier := frontier }

/-! ### New blocks and retired blocks -/

def sidecarRangesOverlap (leftStart leftEnd rightStart rightEnd : Nat) : Bool :=
  leftStart < rightEnd ∧ rightStart < leftEnd

/-- A planned block, and the image frontier that it needs. -/
structure PersistentSidecarLease where
  storage : Sidecar
  imageFrontier : Nat
  deriving DecidableEq, Repr

/-- One more live block, for the highest end of those that overlap a range. -/
def addConflict (start stop : Nat) (seen : Option Nat) : Option (Nat × Nat) → Option Nat
  | none => seen
  | some (liveStart, liveEnd) =>
    if sidecarRangesOverlap start stop liveStart liveEnd then
      some (seen.elim liveEnd fun seen => max seen liveEnd)
    else seen

def conflictEnd (start stop : Nat) (ranges : List (Option (Nat × Nat))) : Option Nat :=
  ranges.foldl (addConflict start stop) none

/-- Look for a gap from an offset on: behind a conflict the search goes on at the end of the
blocks it hit. -/
def planFrom (rv : Rendezvous) (bytes align : Nat) : Nat → Nat →
    Run (Option PersistentSidecarLease)
  | 0, _ => .error .fuel
  | fuel + 1, start => do
    match Layout.checkedAdd platform.usizeMax start bytes with
    | none => return none
    | some stop =>
      let ranges ← (rv.liveSidecars platform).mapM fun resident =>
        rv.sidecarRange platform resident.storage
      match conflictEnd start stop ranges with
      | some next =>
        match ← Layout.checkedAlignOffset platform.usizeMax rv.slabPtr next align with
        | none => return none
        | some start => planFrom rv bytes align fuel start
      | none =>
        if (← rv.endpointStorageFloor platform) < stop ∨ u32Max < stop then return none
        else
          let storage ← Sidecar.fromRawParts (rv.slabPtr + start) bytes
          return some ⟨storage, max rv.imageFrontier stop⟩

/-- Every round of the search passes one of the three live blocks. -/
def planPersistentSidecarBytes (rv : Rendezvous) (bytes align : Nat) :
    Run (Option PersistentSidecarLease) := do
  if bytes = 0 then .error .invariant
  else
    match ← Layout.checkedAlignOffset platform.usizeMax rv.slabPtr 0 align with
    | none => return none
    | some start => rv.planFrom platform bytes align 4 start

def commitPersistentSidecarLease (rv : Rendezvous) (lease : PersistentSidecarLease) :
    Sidecar × Rendezvous :=
  (lease.storage, { rv with imageFrontier := lease.imageFrontier })

def allocatePersistentSidecarBytes (rv : Rendezvous) (bytes align : Nat) :
    Run (Option (Sidecar × Rendezvous)) := do
  return (← rv.planPersistentSidecarBytes platform bytes align).map rv.commitPersistentSidecarLease

/-- The owner of a block has given it up. -/
def retirePersistentSidecar (rv : Rendezvous) (sidecar : Sidecar) : Run Rendezvous := do
  match ← rv.sidecarRange platform sidecar with
  | none => return rv
  | some (_, stop) =>
    if rv.imageFrontier < stop then .error .invariant
    else if ← (rv.liveSidecars platform).anyM fun live => do
        if ← live.storage.isEmpty then return false
        else return live.storage.ptr = sidecar.ptr then .error .invariant
    else rv.compactLiveSidecars platform

end Rendezvous

end Hibana
