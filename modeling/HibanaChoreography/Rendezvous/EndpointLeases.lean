/-
This file models the leases of endpoints in the slab of a rendezvous and the growth of
its tables: `rendezvous/core/endpoint_leases.rs`, `storage_layout/capacity` and the
storage of the resolver table.

A lease is planned before anything changes: room for its slot, the image frontier
after the table of slots has grown, and a gap above that frontier. A lease is reserved
first; it is published when its endpoint is in place, or aborted. A release gives back
what the tables no longer need.
-/

import HibanaChoreography.Rendezvous.Sidecars

namespace Hibana

open Outcome ByteMemory

inductive ResourceScope where
  | endpointLease
  | laneStorage
  | resolverTable
  deriving DecidableEq, Repr

namespace Rendezvous

variable {Key Ref : Type} (platform : Platform Key Ref)

/-! ### Slots -/

def endpointLeaseSlotByIndex (rv : Rendezvous) (index : Nat) : Run (Option EndpointLeaseSlot) := do
  return (← rv.endpointLeaseSlots platform)[index]?

def writeEndpointLeaseSlot (rv : Rendezvous) (index : Nat) (slot : EndpointLeaseSlot) :
    Run Rendezvous := do
  if (← rv.endpointLeaseSlotCount platform) ≤ index then .error .invariant
  else
    let memory := write platform.leases.codec rv.lanes.memory
      (rv.endpointLeaseStorage.ptr + index * platform.leases.codec.size) slot
    return { rv with lanes := { rv.lanes with memory } }

/-- The slot of a published lease; its generation must be the one asked for. -/
def endpointLease (rv : Rendezvous) (leaseSlot : UInt16) (generation : UInt32) :
    Run (Option EndpointLeaseSlot) := do
  match ← rv.endpointLeaseSlotByIndex platform leaseSlot.toNat with
  | none => return none
  | some slot =>
    return if slot.isPublished ∧ slot.generation = generation then some slot else none

def nextEndpointLeaseGeneration (rv : Rendezvous) : Option (UInt32 × Rendezvous) :=
  if rv.endpointLeaseGeneration.toNat = u32Max then none
  else
    let next := rv.endpointLeaseGeneration + 1
    some (next, { rv with endpointLeaseGeneration := next })

/-- The visit of one slot: a published lease of the session gets the sealed state. -/
def sealSlot (sid : UInt32) (rv : Rendezvous) (index : Nat) : Run Rendezvous := do
  match ← rv.endpointLeaseSlotByIndex platform index with
  | none => .error .invariant
  | some slot =>
    if slot.sid = sid ∧ slot.isPublished then
      match slot.state.sealMembership with
      | none => .error .invariant
      | some state => rv.writeEndpointLeaseSlot platform index { slot with state }
    else return rv

/-- All published leases of a session get the sealed state. -/
def sealSessionMembership (rv : Rendezvous) (sid : UInt32) : Run Rendezvous := do
  let slots ← rv.endpointLeaseSlots platform
  if ¬ slots.any (fun slot => slot.sid = sid ∧ slot.isPublished) then .error .invariant
  else (List.range slots.length).foldlM (sealSlot platform sid) rv

/-! ### Room for slots -/

inductive EndpointLeaseCapacityPlan where
  | retained
  | replace (requiredSlots : Nat) (lease : PersistentSidecarLease)
  deriving DecidableEq, Repr

def planEndpointLeaseCapacity (rv : Rendezvous) (requiredSlots : Nat) :
    Run (Except ResourceScope EndpointLeaseCapacityPlan) := do
  if requiredSlots ≤ (← rv.endpointLeaseSlotCount platform) then return .ok .retained
  else if ¬ slotCountIsRepresentable requiredSlots then return .error .endpointLease
  else
    match Layout.checkedMul platform.usizeMax requiredSlots platform.leases.codec.size with
    | none => return .error .endpointLease
    | some bytes =>
      match ← rv.planPersistentSidecarBytes platform bytes platform.leases.align with
      | none => return .error .endpointLease
      | some lease => return .ok (.replace requiredSlots lease)

/-- The image frontier once the plan is committed. -/
def endpointLeaseFloorAfterCapacityPlan (rv : Rendezvous) :
    EndpointLeaseCapacityPlan → Run (Except ResourceScope Nat)
  | .retained => return .ok rv.imageFrontier
  | .replace _ lease => do
    match rv.liveSidecars platform with
    | [leases, associations, resolvers] =>
      if leases.kind ≠ .endpointLeases then .error .invariant
      else
        match ← rv.packedSidecarFrontier platform
            [{ leases with storage := lease.storage }, associations, resolvers] with
        | none => return .error .endpointLease
        | some floor => return .ok floor
    | _ => .error .invariant

/-- Write vacant slots into the tail of a table of slots. -/
def clearSlots (memory : Memory) (table current required : Nat) : Memory :=
  (List.range' current (required - current)).foldl (fun memory index =>
    write platform.leases.codec memory (table + index * platform.leases.codec.size)
      EndpointLeaseSlot.empty) memory

def commitEndpointLeaseCapacity (rv : Rendezvous) :
    EndpointLeaseCapacityPlan → Run Rendezvous
  | .retained => return rv
  | .replace requiredSlots lease => do
    let current ← rv.endpointLeaseSlotCount platform
    if requiredSlots ≤ current then .error .invariant
    else
      let source := rv.endpointLeaseStorage
      let (storage, rv) := rv.commitPersistentSidecarLease lease
      let cleared := clearSlots platform rv.lanes.memory storage.ptr current requiredSlots
      let memory :=
        if current ≠ 0 then
          copy cleared source.ptr storage.ptr (current * platform.leases.codec.size)
        else cleared
      let rv := { rv with lanes := { rv.lanes with memory }, endpointLeaseStorage := storage }
      if ← source.isEmpty then rv.compactLiveSidecars platform
      else rv.retirePersistentSidecar platform source

/-- Drop the vacant slots at the end of the table. -/
def shrinkEndpointLeaseCapacity (rv : Rendezvous) : Run Rendezvous := do
  let slots ← rv.endpointLeaseSlots platform
  let requiredSlots := (slots.reverse.dropWhile fun slot => !slot.isOccupied).length
  if requiredSlots = slots.length then return rv
  else
    let source := rv.endpointLeaseStorage
    if requiredSlots = 0 then
      retirePersistentSidecar platform { rv with endpointLeaseStorage := .empty } source
    else
      let bytes ← Layout.mul platform.usizeMax requiredSlots platform.leases.codec.size
      let storage ← Sidecar.fromRawParts source.ptr bytes
      compactLiveSidecars platform { rv with endpointLeaseStorage := storage }

/-! ### Places for leases -/

/-- The highest place in a gap at which a lease fits and is aligned. -/
def endpointOffsetInGap (base gapStart gapEnd bytes align : Nat) : Run (Option Nat) :=
  if ¬ Layout.isPowerOfTwo align then .error .invariant
  else if gapEnd < bytes then .ok none
  else
    match Layout.checkedAdd platform.usizeMax base (gapEnd - bytes) with
    | none => .ok none
    | some unaligned =>
      let aligned := Layout.alignDown unaligned align
      if aligned < base then .ok none
      else if aligned - base < gapStart then .ok none
      else .ok (some (aligned - base))

/-- One more slot, for the last lease that begins before an offset. -/
def laterLease (candidateEnd : Nat) (best : Option EndpointLeaseSlot × Nat)
    (slot : EndpointLeaseSlot) : Option EndpointLeaseSlot × Nat :=
  if slot.isOccupied ∧ slot.offset.toNat < candidateEnd ∧ best.2 ≤ slot.offset.toNat then
    (some slot, slot.offset.toNat)
  else best

def bestBelow (candidateEnd : Nat) (slots : List EndpointLeaseSlot) : Option EndpointLeaseSlot :=
  (slots.foldl (laterLease candidateEnd) (none, 0)).1

/-- Try the gap below an offset, then the gap below the lease under it. -/
def planOffsetBelow (rv : Rendezvous) (slots : List EndpointLeaseSlot) (bytes align floor : Nat) :
    Nat → Nat → Run (Except ResourceScope Nat)
  | 0, _ => .error .fuel
  | fuel + 1, candidateEnd => do
    let best := bestBelow candidateEnd slots
    let gapStart ← match best with
      | some slot => Layout.add platform.usizeMax slot.offset.toNat slot.len.toNat
      | none => pure floor
    let found ← endpointOffsetInGap platform rv.slabPtr gapStart candidateEnd bytes align
    match found.filter (floor ≤ ·), best with
    | some offset, _ => return .ok offset
    | none, none => return .error .endpointLease
    | none, some slot => planOffsetBelow rv slots bytes align floor fuel slot.offset.toNat

/-- Every round of the search passes a lease. -/
def planEndpointLeaseOffset (rv : Rendezvous) (bytes align floor : Nat) :
    Run (Except ResourceScope Nat) := do
  let slots ← rv.endpointLeaseSlots platform
  rv.planOffsetBelow platform slots bytes align floor (slots.length + 1) rv.slabLen

/-! ### Leases -/

/-- A reserved lease: its slot, its generation, its place and its length. -/
structure ReservedLease where
  slot : UInt16
  generation : UInt32
  offset : Nat
  bytes : Nat
  deriving DecidableEq, Repr

/-- The reservation itself, behind the plan. -/
def reserveEndpointLease (rv : Rendezvous) (sid : UInt32) (role : UInt8)
    (bytes offset slotIndex : Nat) (plan : EndpointLeaseCapacityPlan) :
    Run (ReservedLease × Rendezvous) := do
  let rv ← rv.commitEndpointLeaseCapacity platform plan
  match ← rv.endpointLeaseSlotByIndex platform slotIndex with
  | none => .error .invariant
  | some slot =>
    if slot.isOccupied then .error .invariant
    else
      match rv.nextEndpointLeaseGeneration with
      | none => .error .invariant
      | some (generation, rv) =>
        let rv ← rv.writeEndpointLeaseSlot platform slotIndex
          ⟨generation, sid, UInt32.ofNat offset, UInt32.ofNat bytes, role, .reserved⟩
        return (⟨UInt16.ofNat slotIndex, generation, offset, bytes⟩, rv)

/-- The table of slots lies in the slab. -/
def checkLeaseStorage (rv : Rendezvous) : Run Unit := do
  let slabEnd ← Layout.add platform.usizeMax rv.slabPtr rv.slabLen
  if ← rv.endpointLeaseStorage.isEmpty then return
  else
    let leaseEnd ← Layout.add platform.usizeMax rv.endpointLeaseStorage.ptr
      rv.endpointLeaseStorage.bytes
    if rv.endpointLeaseStorage.ptr < rv.slabPtr ∨ slabEnd < leaseEnd then .error .invariant
    else return

/-- Look for a place above the planned floor, and reserve a lease there. -/
def placeEndpointLease (rv : Rendezvous) (sid : UInt32) (role : UInt8)
    (bytes align slotIndex : Nat) (plan : EndpointLeaseCapacityPlan) (floor : Nat) :
    Run (Except ResourceScope ReservedLease × Rendezvous) := do
  match ← rv.planEndpointLeaseOffset platform bytes align floor with
  | .error scope => return (.error scope, rv)
  | .ok offset =>
    if u32Max < offset ∨ 65535 < slotIndex then return (.error .endpointLease, rv)
    else
      let (lease, rv) ← rv.reserveEndpointLease platform sid role bytes offset slotIndex plan
      return (.ok lease, rv)

def allocateEndpointLease (rv : Rendezvous) (sid : UInt32) (role : UInt8) (bytes align : Nat) :
    Run (Except ResourceScope ReservedLease × Rendezvous) := do
  if u32Max < bytes ∨ rv.endpointLeaseGeneration.toNat = u32Max then
    return (.error .endpointLease, rv)
  else
    let slots ← rv.endpointLeaseSlots platform
    let slotIndex := (slots.findIdx? fun slot => !slot.isOccupied).getD slots.length
    if slotIndex = slots.length ∧ platform.usizeMax < slots.length + 1 then
      return (.error .endpointLease, rv)
    else
      let requiredSlots := if slotIndex = slots.length then slots.length + 1 else slots.length
      match ← rv.planEndpointLeaseCapacity platform requiredSlots with
      | .error scope => return (.error scope, rv)
      | .ok plan =>
        match ← rv.endpointLeaseFloorAfterCapacityPlan platform plan with
        | .error scope => return (.error scope, rv)
        | .ok floor =>
          rv.checkLeaseStorage platform
          rv.placeEndpointLease platform sid role bytes align slotIndex plan floor

def publishEndpointLease (rv : Rendezvous) (leaseSlot : UInt16) (generation : UInt32) :
    Run Rendezvous := do
  match ← rv.endpointLeaseSlotByIndex platform leaseSlot.toNat with
  | none => .error .invariant
  | some slot =>
    if slot.generation ≠ generation ∨ slot.state ≠ .reserved then .error .invariant
    else rv.writeEndpointLeaseSlot platform leaseSlot.toNat { slot with state := .published }

/-! ### The tables of lanes and of resolvers -/

def laneDomainSize : Nat := 256

/-- Room for a number of lanes and of entries of the association table. -/
def ensureLaneStorage (rv : Rendezvous) (requiredLaneSlots requiredAssocSlots : Nat) :
    Run (Except ResourceScope Unit × Rendezvous) := do
  let laneSlots ← rv.lanes.laneSlotCount
  if requiredLaneSlots = 0 ∨ laneDomainSize < requiredLaneSlots then
    return (.error .laneStorage, rv)
  else if requiredAssocSlots = 0 ∨ 65535 < requiredAssocSlots then
    return (.error .laneStorage, rv)
  else
    let targetLaneSlots := max laneSlots requiredLaneSlots
    let targetAssocSlots := max rv.lanes.assoc.assocSlots requiredAssocSlots
    if u32Max < targetLaneSlots ∨ u32Max < rv.lanes.laneBase + targetLaneSlots then
      return (.error .laneStorage, rv)
    else if rv.lanes.assoc.isBound ∧ targetLaneSlots ≤ laneSlots ∧
        targetAssocSlots ≤ rv.lanes.assoc.assocSlots then
      return (.ok (), rv)
    else
      let assocWasBound := rv.lanes.assoc.isBound
      let source := rv.assocStorage
      let bytes ← AssocTable.storageBytes platform.usizeMax targetAssocSlots
      match ← rv.allocatePersistentSidecarBytes platform bytes AssocTable.storageAlign with
      | none => return (.error .laneStorage, rv)
      | some (lease, rv) =>
        let lanes ← rv.lanes.installLaneStorage platform.usizeMax lease.ptr targetLaneSlots
          targetAssocSlots
        -- the source sets the range of lanes behind the retirement, which does not read it
        let rv := { rv with lanes, assocStorage := lease }
        if assocWasBound then
          return (.ok (), ← rv.retirePersistentSidecar platform source)
        else return (.ok (), rv)

/-- The entries of the resolver table. -/
def resolverEntries (rv : Rendezvous) : Run (List (Option (Key × Ref))) := do
  let capacity ← recordCount platform.resolvers rv.resolverStorage
  return array platform.resolvers.codec rv.lanes.memory rv.resolverStorage.ptr capacity

/-- Write the entries of a resolver table. -/
def writeResolvers (memory : Memory) (table : Nat) (entries : List (Option (Key × Ref))) : Memory :=
  entries.zipIdx.foldl (fun memory entry =>
    write platform.resolvers.codec memory (table + entry.2 * platform.resolvers.codec.size)
      entry.1) memory

/-- Fill a new block for the resolver table: vacant entries, then the present ones in front. -/
def replaceResolverStorage (rv : Rendezvous) (storage : Sidecar) (required : Nat) :
    Run Rendezvous := do
  if (← recordCount platform.resolvers storage) ≠ required then .error .invariant
  else
    let entries ← rv.resolverEntries platform
    let present := entries.filter Option.isSome
    let cleared := writeResolvers platform rv.lanes.memory storage.ptr
      (List.replicate required none)
    if required < present.length then .error .invariant
    else
      let memory := writeResolvers platform cleared storage.ptr present
      return { rv with lanes := { rv.lanes with memory }, resolverStorage := storage }

def ensureDynamicResolverCapacity (rv : Rendezvous) (additionalEntries : Nat) :
    Run (Except ResourceScope Unit × Rendezvous) := do
  if additionalEntries = 0 then return (.ok (), rv)
  else
    let entries ← rv.resolverEntries platform
    match Layout.checkedAdd platform.usizeMax (entries.countP Option.isSome) additionalEntries with
    | none => return (.error .resolverTable, rv)
    | some required =>
      if required ≤ entries.length then return (.ok (), rv)
      else
        let source := rv.resolverStorage
        let bytes ← Layout.mul platform.usizeMax required platform.resolvers.codec.size
        match ← rv.allocatePersistentSidecarBytes platform bytes platform.resolvers.align with
        | none => return (.error .resolverTable, rv)
        | some (storage, rv) =>
          let rv ← rv.replaceResolverStorage platform storage required
          return (.ok (), ← rv.retirePersistentSidecar platform source)

/-- Set the resolver of a key, in its entry or in the first vacant one. -/
def insertDynamicResolver [DecidableEq Key] (rv : Rendezvous) (registration : Key)
    (resolver : Ref) : Run (Except ResourceScope Unit × Rendezvous) := do
  let entries ← rv.resolverEntries platform
  let put (index : Nat) : Rendezvous :=
    let memory := write platform.resolvers.codec rv.lanes.memory
      (rv.resolverStorage.ptr + index * platform.resolvers.codec.size)
      (some (registration, resolver))
    { rv with lanes := { rv.lanes with memory } }
  match entries.findIdx? fun entry => entry.map Prod.fst = some registration with
  | some index => return (.ok (), put index)
  | none =>
    match entries.findIdx? fun entry => !entry.isSome with
    | some index => return (.ok (), put index)
    | none => return (.error .resolverTable, rv)

/-! ### Releases -/

def shrinkAssocTableCapacity (rv : Rendezvous) (required : Nat) : Run Rendezvous := do
  let lanes ← rv.lanes.shrinkAssocTable platform.usizeMax rv.assocStorage.ptr required
  if required = rv.lanes.assoc.assocSlots then return { rv with lanes }
  else if required = 0 then
    retirePersistentSidecar platform { rv with lanes, assocStorage := .empty } rv.assocStorage
  else
    let bytes ← AssocTable.storageBytes platform.usizeMax required
    let storage ← Sidecar.fromRawParts rv.assocStorage.ptr bytes
    compactLiveSidecars platform { rv with lanes, assocStorage := storage }

def shrinkLaneRange (rv : Rendezvous) (required : Nat) : Run Rendezvous := do
  return { rv with lanes := ← rv.lanes.shrinkLaneRange required }

def releaseEndpointLease (rv : Rendezvous) (leaseSlot : UInt16) (generation : UInt32) :
    Run Rendezvous := do
  match ← rv.endpointLeaseSlotByIndex platform leaseSlot.toNat with
  | none => .error .invariant
  | some slot =>
    if ¬ slot.isOccupied ∨ slot.generation ≠ generation then .error .invariant
    else
      let rv ← rv.writeEndpointLeaseSlot platform leaseSlot.toNat
        { EndpointLeaseSlot.empty with generation := slot.generation }
      let rv ← rv.shrinkAssocTableCapacity platform
        (rv.lanes.assoc.activeEntryCount rv.lanes.memory)
      let rv ← rv.shrinkLaneRange (rv.lanes.assoc.activeLaneSlots rv.lanes.memory)
      rv.shrinkEndpointLeaseCapacity platform

def abortEndpointLeaseReservation (rv : Rendezvous) (leaseSlot : UInt16) (generation : UInt32) :
    Run Rendezvous := do
  match ← rv.endpointLeaseSlotByIndex platform leaseSlot.toNat with
  | none => .error .invariant
  | some slot =>
    if slot.state ≠ .reserved ∨ slot.generation ≠ generation ∨
        rv.endpointLeaseGeneration ≠ generation then .error .invariant
    else if generation = 0 then .error .invariant
    else
      let rv ← rv.releaseEndpointLease platform leaseSlot generation
      return { rv with endpointLeaseGeneration := generation - 1 }

end Rendezvous

end Hibana
