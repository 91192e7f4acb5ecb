/-
This file models the registry of rendezvous of a session cluster and the allocation of
endpoint leases through it: `session/lease/core/registry_ops.rs` and
`rendezvous/core/endpoint_leases/session_binding.rs`.

One scan over all rendezvous decides about an allocation: none of them may be leased,
have sealed the session, or have another program or the same role for it. The program
of a session is not stored with its leases; it is read from the actor in the slab at
the place of a published lease.
-/

import HibanaChoreography.Rendezvous.LeaseGenerations

namespace Hibana

open Outcome ByteMemory Machines

/-! ### Compiled programs -/

/-- The counts of the columns of a program image. The highest bit of the number of atoms marks the
grammar with owners, in which the tail is the length of the whole image. -/
structure ProgramImageColumns where
  atomLen : UInt16
  routeResolverLen : UInt16
  routeParticipantLen : UInt16
  tail : UInt16
  deriving DecidableEq, Repr

namespace ProgramImageColumns

def owned : UInt16 := 0x8000

def hasOwnership (columns : ProgramImageColumns) : Bool := columns.atomLen &&& owned ≠ 0

def atomCount (columns : ProgramImageColumns) : Nat := (columns.atomLen &&& ~~~owned).toNat

def scopeMarkerOffset (columns : ProgramImageColumns) : Nat :=
  columns.atomCount * 9 + columns.routeResolverLen.toNat * 8 + columns.routeParticipantLen.toNat

def blobLen (columns : ProgramImageColumns) : Nat :=
  if columns.hasOwnership then columns.tail.toNat
  else columns.scopeMarkerOffset + columns.tail.toNat * 5

end ProgramImageColumns

/-- A compiled program: its facts, its columns, and an image as long as the columns say. -/
structure CompiledProgram where
  maxRole : UInt8
  columns : ProgramImageColumns
  blob : List UInt8
  covers : blob.length = columns.blobLen
  deriving DecidableEq

/-- Two references name the same image: the same facts, columns and bytes. -/
def CompiledProgram.sameImage (program other : CompiledProgram) : Bool :=
  if program.maxRole ≠ other.maxRole ∨ program.columns ≠ other.columns then false
  else (List.range program.blob.length).all fun offset =>
    program.blob[offset]? = other.blob[offset]?

theorem CompiledProgram.sameImage_iff {program other : CompiledProgram} :
    program.sameImage other = true ↔ program = other := by
  constructor
  · intro same
    unfold sameImage at same
    split at same
    · cases same
    · rename_i alike
      push Not at alike
      obtain ⟨sameFacts, sameColumns⟩ := alike
      have sameLength : program.blob.length = other.blob.length := by
        rw [program.covers, other.covers, sameColumns]
      have sameBytes : program.blob = other.blob := by
        refine List.ext_getElem? fun offset => ?_
        by_cases inside : offset < program.blob.length
        · exact of_decide_eq_true (List.all_eq_true.mp same offset (List.mem_range.mpr inside))
        · rw [List.getElem?_eq_none (Nat.not_lt.mp inside),
            List.getElem?_eq_none (sameLength ▸ Nat.not_lt.mp inside)]
      obtain ⟨_, _, _, _⟩ := program
      obtain ⟨_, _, _, _⟩ := other
      subst sameFacts sameColumns sameBytes
      rfl
  · rintro rfl
    unfold sameImage
    rw [if_neg (by rintro (differs | differs) <;> exact differs rfl)]
    exact List.all_eq_true.mpr fun _ _ => decide_eq_true rfl

/-! ### Registered rendezvous -/

/-- Where an actor keeps the reference to its program. -/
structure ActorLayout where
  programOffset : Nat
  pointerBytes : Nat
  pointerAlign : Nat
  aligned : pointerAlign ∣ programOffset

/-- A rendezvous of the registry. `actors` has the program of the actor at an offset of the slab;
the actors lie in the leases, apart from the tables. -/
structure Registered where
  id : UInt16
  busy : Bool
  arena : Arena
  actors : Nat → Option CompiledProgram

inductive ClusterError where
  | rendezvousMismatch (expected actual : UInt16)
  | rendezvousUnregistered (id : UInt16)
  | rendezvousBusy (id : UInt16)
  | sessionProgramMismatch (sid : UInt32)
  | sessionMembershipSealed (sid : UInt32)
  | resourceExhausted (scope : ResourceScope)
  deriving DecidableEq, Repr

structure EndpointLeaseRequest where
  rendezvous : UInt16
  session : UInt32
  role : UInt8
  program : CompiledProgram
  bytes : Nat
  align : Nat

section Registry

variable {Key Ref : Type} [DecidableEq Key] (platform : Platform Key Ref) (layout : ActorLayout)

namespace Registered

def sessionMembershipIsSealed (entry : Registered) (sid : UInt32) : Run Bool := do
  let slots ← entry.arena.rv.endpointLeaseSlots platform
  return slots.any fun slot => slot.sid = sid ∧ slot.state = .membershipSealed

def hasEndpointSessionRole (entry : Registered) (sid : UInt32) (role : UInt8) : Run Bool := do
  let slots ← entry.arena.rv.endpointLeaseSlots platform
  return slots.any fun slot => slot.isOccupied ∧ slot.sid = sid ∧ slot.role = role

/-- The program of the actor in a lease: its field lies in the lease and is aligned. -/
def residentProgramRef (entry : Registered) (offset len : Nat) : Run CompiledProgram :=
  if len < layout.programOffset + layout.pointerBytes then .error .invariant
  else if (entry.arena.rv.slabPtr + offset + layout.programOffset) % layout.pointerAlign ≠ 0 then
    .error .invariant
  else
    match entry.actors offset with
    | some program => .ok program
    | none => .error .invariant

/-- One more slot: a lease of the session must be published, lie in the slab, and have the program
that was found before. -/
def bindProgram (entry : Registered) (sid : UInt32) (bound : Option CompiledProgram)
    (slot : EndpointLeaseSlot) : Run (Option CompiledProgram) := do
  if ¬ slot.isOccupied ∨ slot.sid ≠ sid then return bound
  else if ¬ slot.isPublished then .error .invariant
  else
    let stop ← Layout.add platform.usizeMax slot.offset.toNat slot.len.toNat
    if slot.len = 0 ∨ entry.arena.rv.slabLen < stop then .error .invariant
    else
      let program ← entry.residentProgramRef layout slot.offset.toNat slot.len.toNat
      match bound with
      | some existing =>
        if existing.sameImage program then return some existing else .error .invariant
      | none => return some program

def endpointSessionProgram (entry : Registered) (sid : UInt32) : Run (Option CompiledProgram) := do
  let slots ← entry.arena.rv.endpointLeaseSlots platform
  slots.foldlM (entry.bindProgram platform layout sid) none

end Registered

/-! ### Allocation -/

/-- The scan of the registry: the position of the requested rendezvous, or why there is no lease. -/
def scanRegistry (request : EndpointLeaseRequest) :
    Option Nat → Nat → List Registered → Run (Except ClusterError (Option Nat))
  | target, _, [] => .ok (.ok target)
  | target, index, entry :: rest => do
    let target := if entry.id = request.rendezvous then some index else target
    if entry.busy then return .error (.rendezvousBusy entry.id)
    else if ← entry.sessionMembershipIsSealed platform request.session then
      if entry.id ≠ request.rendezvous then
        return .error (.rendezvousMismatch entry.id request.rendezvous)
      else return .error (.sessionMembershipSealed request.session)
    else
      match ← entry.endpointSessionProgram platform layout request.session with
      | none => scanRegistry request target (index + 1) rest
      | some bound =>
        if entry.id ≠ request.rendezvous then
          return .error (.rendezvousMismatch entry.id request.rendezvous)
        else if ¬ bound.sameImage request.program then
          return .error (.sessionProgramMismatch request.session)
        else if ← entry.hasEndpointSessionRole platform request.session request.role then
          return .error (.rendezvousBusy request.rendezvous)
        else scanRegistry request target (index + 1) rest

/-- The lease in the requested rendezvous. Behind it the actor is put into its place, with the
program of the request, before the lease is published. -/
def Registered.allocate (entry : Registered) (request : EndpointLeaseRequest) :
    Run (Except ClusterError Rendezvous.ReservedLease × Registered) := do
  let (result, rv) ← entry.arena.rv.allocateEndpointLease platform request.session request.role
    request.bytes request.align
  match result with
  | .error scope => return (.error (.resourceExhausted scope),
      { entry with arena := { entry.arena with rv } })
  | .ok lease => return (.ok lease,
      { entry with
        arena := ⟨rv, (lease.slot, lease.generation) :: entry.arena.issued⟩
        actors := Function.update entry.actors lease.offset (some request.program) })

def allocateEndpointLeaseForSessionRole (registry : List Registered)
    (request : EndpointLeaseRequest) :
    Run (Except ClusterError Rendezvous.ReservedLease × List Registered) := do
  match ← scanRegistry platform layout request none 0 registry with
  | .error error => return (.error error, registry)
  | .ok target =>
    match target with
    | none => return (.error (.rendezvousUnregistered request.rendezvous), registry)
    | some index =>
      match registry[index]? with
      | none => .error .invariant
      | some entry =>
        let (result, entry) ← entry.allocate platform request
        return (result, registry.set index entry)

/-! ### Requests -/

/-- Requests to a registry: an allocation, a request to the slab of one rendezvous, or a change of
its access state. -/
inductive RegistryOp (Key Ref : Type) where
  | allocate (request : EndpointLeaseRequest)
  | within (id : UInt16) (op : ArenaOp Key Ref)
  | setBusy (id : UInt16) (busy : Bool)

inductive RegistryReply where
  | allocated (result : Except ClusterError Rendezvous.ReservedLease)
  | within (reply : ArenaReply)
  | done

namespace Registry

/-- The first rendezvous with an identifier. -/
def position (registry : List Registered) (id : UInt16) : Option Nat :=
  registry.findIdx? fun entry => entry.id = id

def perform (registry : List Registered) :
    RegistryOp Key Ref → Run (RegistryReply × List Registered)
  | .allocate request => do
    let (result, registry) ← allocateEndpointLeaseForSessionRole platform layout registry request
    return (.allocated result, registry)
  | .within id op =>
    match position registry id with
    | none => .error .invariant
    | some index =>
      match registry[index]? with
      | none => .error .invariant
      | some entry => do
        let (reply, arena) ← entry.arena.perform platform op
        return (.within reply, registry.set index { entry with arena })
  | .setBusy id busy => .ok (.done, registry.map fun entry =>
      if entry.id = id then { entry with busy } else entry)

/-- A lease in a slot of a rendezvous. -/
def HasLease (entry : Registered) (index : Nat) (slot : EndpointLeaseSlot) : Prop :=
  ∃ slots, entry.arena.rv.endpointLeaseSlots platform = .ok slots ∧ slots[index]? = some slot ∧
    slot.isOccupied = true

/-- An allocation in a slab. -/
def IsAllocation : ArenaOp Key Ref → Prop
  | .allocate .. => True
  | _ => False

/-- What callers may ask for. A lease is allocated while no lease is reserved, with room for the
actor and its alignment. The other requests are those of a slab. -/
def Admits (registry : List Registered) : RegistryOp Key Ref → Prop
  | .allocate request =>
    (∀ entry ∈ registry, ∀ index slot, HasLease platform entry index slot →
      slot.state ≠ .reserved) ∧
    layout.programOffset + layout.pointerBytes ≤ request.bytes ∧ request.bytes ≠ 0 ∧
    Layout.isPowerOfTwo request.align = true ∧ layout.pointerAlign ∣ request.align
  | .within id op => ¬ IsAllocation op ∧
      ∃ entry ∈ registry, entry.id = id ∧ entry.arena.Admits platform op
  | .setBusy .. => True

def machine : Machine (List Registered) (RegistryOp Key Ref) RegistryReply :=
  ⟨Admits platform layout, perform platform layout⟩

/-- Membership is sealed while no lease of the session is reserved, as endpoint operations are
refused while a lease is being set up. -/
def AdmitsSettled (registry : List Registered) : RegistryOp Key Ref → Prop
  | .within id (.sealMembership sid) =>
    Admits platform layout registry (.within id (.sealMembership sid)) ∧
    ∀ entry ∈ registry, ∀ index slot, HasLease platform entry index slot → slot.sid = sid →
      slot.state ≠ .reserved
  | op => Admits platform layout registry op

def settledMachine : Machine (List Registered) (RegistryOp Key Ref) RegistryReply :=
  ⟨AdmitsSettled platform layout, perform platform layout⟩

/-- Rendezvous with different identifiers and empty slabs. -/
structure Fresh (registry : List Registered) : Prop where
  ids : (registry.map Registered.id).Nodup
  empty : ∀ entry ∈ registry, ∃ memory slabPtr slabLen, 0 < slabPtr ∧
    slabPtr + slabLen ≤ platform.usizeMax ∧ entry.arena = Arena.new memory slabPtr slabLen

end Registry

end Registry

end Hibana
