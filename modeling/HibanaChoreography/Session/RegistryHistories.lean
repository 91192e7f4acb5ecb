/-
This file is about histories of a registry: leases are allocated through it, published,
aborted, sealed and released in any order, while the tables of the rendezvous grow and
shrink and their access states change.

An allocation adds one lease, which the scan has compared with the other leases of its
session. A session all of whose leases are sealed gets no lease, so it stays sealed until
the last one is released. This needs that a session is sealed while none of its leases is
reserved: a lease that is published behind the seal is not sealed, and when it is the
last one the session is open again.
-/

import HibanaChoreography.Session.RegistryRuns

namespace Hibana

open Outcome ByteMemory Machines Rendezvous List

namespace Registry

variable {Key Ref : Type} {platform : Platform Key Ref} {layout : ActorLayout}
  {request : EndpointLeaseRequest}

/-! ### Allocations -/

/-- A new lease: reserved, with its actor in place. -/
structure NewLease (layout : ActorLayout) (request : EndpointLeaseRequest) (entry : Registered)
    (slot : EndpointLeaseSlot) : Prop where
  sid : slot.sid = request.session
  role : slot.role = request.role
  state : slot.state = .reserved
  fits : ActorFits layout entry slot
  program : entry.actors slot.offset.toNat = some request.program

/-- A rendezvous behind an allocation: one more lease, and the others are as before. -/
structure Gains (platform : Platform Key Ref) (layout : ActorLayout)
    (request : EndpointLeaseRequest) (entry after : Registered) (index : Nat) : Prop where
  id : after.id = entry.id
  slabPtr : after.arena.rv.slabPtr = entry.arena.rv.slabPtr
  kept : ∃ start contents, Arena.Keeps platform start after.arena (contents : Contents Key Ref)
  leases : ∀ other slot, HasLease platform after other slot →
    (other = index ∧ NewLease layout request after slot) ∨
    (other ≠ index ∧ HasLease platform entry other slot ∧
      after.actors slot.offset.toNat = entry.actors slot.offset.toNat)

variable {sid : UInt32} {index : Nat} {entry : Registered} {registry next : List Registered}
  {op : RegistryOp Key Ref} {contents : Contents Key Ref}

/-- The place of a reserved lease is no place of another one. -/
theorem offset_ne_of_reserve {rv : Rendezvous} {role : UInt8} {align : Nat} {lease : ReservedLease}
    (holds : Rendezvous.Holds platform rv (contents.reserve sid role align lease))
    {other : EndpointLeaseSlot × Nat} (ne : index ≠ lease.slot.toNat)
    (occupies : OccupiesSlot (contents.reserve sid role align lease).leases index other) :
    other.1.offset ≠ (reservedSlot sid role lease).offset := by
  have isNew : (contents.reserve sid role align lease).leases[lease.slot.toNat]? =
      some (reservedSlot sid role lease, align) := by
    refine getElem?_set_self ?_
    rw [roomFor, length_append, vacantSlots, length_replicate]
    omega
  obtain ⟨isOther, occupied⟩ := occupies
  have newFilled := (holds.fits _ (mem_of_getElem? isNew) rfl).filled
  have otherFilled := (holds.fits _ (mem_of_getElem? isOther) occupied).filled
  have apart : LeasesApart other (reservedSlot sid role lease, align) := by
    obtain ⟨otherInside, isOther⟩ := List.getElem?_eq_some_iff.mp isOther
    obtain ⟨newInside, isNew⟩ := List.getElem?_eq_some_iff.mp isNew
    rw [← isOther, ← isNew]
    rcases Nat.lt_or_gt_of_ne ne with before | behind
    · exact pairwise_iff_getElem.mp holds.apart _ _ _ _ before
    · exact symm (pairwise_iff_getElem.mp holds.apart _ _ _ _ behind)
  intro same
  have sameStart : leaseStart other = leaseStart (reservedSlot sid role lease, align) :=
    congrArg UInt32.toNat same
  rcases apart occupied rfl with before | behind
  · omega
  · omega

theorem Registered.allocate_spec [DecidableEq Key] {start : Rendezvous}
    (keeps : Arena.Keeps platform start entry.arena contents)
    (room : layout.programOffset + layout.pointerBytes ≤ request.bytes) (filled : request.bytes ≠ 0)
    (isPower : Layout.isPowerOfTwo request.align = true)
    (divides : layout.pointerAlign ∣ request.align) :
    (∃ scope, entry.allocate platform request = .ok (.error (.resourceExhausted scope), entry)) ∨
      ∃ lease after, entry.allocate platform request = .ok (.ok lease, after) ∧
        Gains platform layout request entry after lease.slot.toNat := by
  rcases keeps.holds.allocate request.session request.role (Nat.pos_of_ne_zero filled) isPower with
    ⟨scope, isError⟩ | ⟨lease, rv, isOk, _, _, _, isNext, sameRange, _⟩
  · refine .inl ⟨scope, ?_⟩
    rw [Registered.allocate, isError, Run.bind_ok]
    rfl
  obtain ⟨isBytes, small, inDomain⟩ := allocateEndpointLease_place isOk
  have isKept : Arena.Keeps platform start
      ⟨rv, (lease.slot, lease.generation) :: entry.arena.issued⟩
      (contents.reserve request.session request.role request.align lease) := by
    have admitted : entry.arena.Admits platform
        (.allocate request.session request.role request.bytes request.align) := ⟨filled, isPower⟩
    obtain ⟨reply, next, isPerformed, _, isKept⟩ := keeps.perform admitted
    rw [Arena.perform, isOk, Run.bind_ok] at isPerformed
    cases isPerformed
    exact isKept
  have isOffset : (reservedSlot request.session request.role lease).offset.toNat = lease.offset :=
    UInt32.toNat_ofNat_of_lt' (Nat.lt_succ_of_le inDomain)
  have isLen : (reservedSlot request.session request.role lease).len.toNat = request.bytes := by
    rw [reservedSlot, isBytes]
    exact UInt32.toNat_ofNat_of_lt' (Nat.lt_succ_of_le small)
  let after : Registered :=
    { entry with
      arena := ⟨rv, (lease.slot, lease.generation) :: entry.arena.issued⟩
      actors := Function.update entry.actors lease.offset (some request.program) }
  have isAfter : Arena.Keeps platform start after.arena
    (contents.reserve request.session request.role request.align lease) := isKept
  have isActor : after.actors lease.offset = some request.program := Function.update_self ..
  refine .inr ⟨lease, after, ?_, rfl, sameRange.sameSlab.1, ⟨start, _, isAfter⟩, ?_⟩
  · rw [Registered.allocate, isOk, Run.bind_ok]
    rfl
  · intro index slot hasLease
    obtain ⟨other, occupies, rfl⟩ := (hasLease_iff isAfter).mp hasLease
    rcases occupies_reserve occupies with ⟨rfl, rfl⟩ | ⟨ne, wasThere⟩
    · have isAligned := (isNext.fits _ (mem_of_getElem? occupies.1) rfl).aligned
      refine .inl ⟨rfl, rfl, rfl, rfl, ⟨?_, ?_, ?_⟩, ?_⟩
      · rw [isLen]
        exact room
      · exact Nat.mod_eq_zero_of_dvd (Nat.dvd_add
          (Nat.dvd_trans divides (Nat.dvd_of_mod_eq_zero isAligned)) layout.aligned)
      · rw [isOffset, isActor]
        rfl
      · rw [isOffset, isActor]
    · refine .inr ⟨ne, (hasLease_iff keeps).mpr ⟨other, wasThere, rfl⟩, ?_⟩
      refine Function.update_of_ne (fun same => ?_) _ _
      exact offset_ne_of_reserve isNext ne occupies (UInt32.toNat_inj.mp (same.trans isOffset.symm))

theorem set_of_getElem? {Value : Type} {values : List Value} {value : Value}
    (isValue : values[index]? = some value) : values.set index value = values := by
  obtain ⟨inside, rfl⟩ := List.getElem?_eq_some_iff.mp isValue
  exact set_getElem_self inside

variable {slot : EndpointLeaseSlot}

/-- A lease behind an allocation is the new one or was there before. -/
theorem Gains.origin {position : Nat} {after : Registered}
    (gains : Gains platform layout request entry after index)
    (isEntry : registry[position]? = some entry) {other : Registered}
    (mem : other ∈ registry.set position after) {slotIndex : Nat}
    (hasLease : HasLease platform other slotIndex slot) :
    (other = after ∧ slotIndex = index ∧ NewLease layout request after slot) ∨
      ∃ before ∈ registry, other.id = before.id ∧
        other.arena.rv.slabPtr = before.arena.rv.slabPtr ∧ HasLease platform before slotIndex slot ∧
        other.actors slot.offset.toNat = before.actors slot.offset.toNat ∧
        (other = after → slotIndex ≠ index) := by
  by_cases isAfter : other = after
  · subst isAfter
    rcases gains.leases slotIndex slot hasLease with ⟨isIndex, isNew⟩ | ⟨ne, hadLease, same⟩
    · exact .inl ⟨rfl, isIndex, isNew⟩
    · exact .inr ⟨entry, mem_of_getElem? isEntry, gains.id, gains.slabPtr, hadLease, same,
        fun _ => ne⟩
  · have wasThere := (mem_or_eq_of_mem_set mem).resolve_right isAfter
    exact .inr ⟨other, wasThere, rfl, rfl, hasLease, rfl, fun same => absurd same isAfter⟩

/-- An allocation behind a scan keeps the leases of sessions apart. -/
theorem Holds.gain (holds : Holds platform layout registry) {position index : Nat}
    {entry after : Registered} (isEntry : registry[position]? = some entry)
    (isId : entry.id = request.rendezvous)
    (passed : ∀ entry ∈ registry, ∀ index slot, HasLease platform entry index slot →
      slot.sid = request.session → Passed request entry slot)
    (gains : Gains platform layout request entry after index) :
    Holds platform layout (registry.set position after) := by
  have afterId : after.id = request.rendezvous := gains.id.trans isId
  refine ⟨?_, fun other mem => ?_, fun other mem slotIndex slot hasLease => ?_, ?_, ?_, ?_⟩
  · rw [map_set, gains.id, set_of_getElem?]
    · exact holds.ids
    · rw [getElem?_map, isEntry]
      rfl
  · rcases mem_or_eq_of_mem_set mem with wasThere | rfl
    · exact holds.kept other wasThere
    · exact gains.kept
  · rcases gains.origin isEntry mem hasLease with ⟨rfl, _, isNew⟩ |
      ⟨before, isBefore, _, samePtr, hadLease, sameActor, _⟩
    · exact isNew.fits
    · have fits := holds.fits before isBefore slotIndex slot hadLease
      exact ⟨fits.room, by rw [samePtr]; exact fits.aligned, by rw [sameActor]; exact fits.program⟩
  · intro first isFirst second isSecond firstIndex slot secondIndex found firstLease
      secondLease same
    rcases gains.origin isEntry isFirst firstLease with ⟨rfl, _, isNew⟩ |
      ⟨before, isBefore, beforeId, _, hadLease, _, _⟩
    · rcases gains.origin isEntry isSecond secondLease with ⟨rfl, _, _⟩ |
        ⟨other, isOther, otherId, _, hadFound, _, _⟩
      · rfl
      · rw [afterId, otherId]
        exact (passed other isOther secondIndex found hadFound (same.symm.trans isNew.sid)).id.symm
    · rcases gains.origin isEntry isSecond secondLease with ⟨rfl, _, isNew⟩ |
        ⟨other, isOther, otherId, _, hadFound, _, _⟩
      · rw [afterId, beforeId]
        exact (passed before isBefore firstIndex slot hadLease (same.trans isNew.sid)).id
      · rw [beforeId, otherId]
        exact holds.apart.together before isBefore other isOther firstIndex slot secondIndex found
          hadLease hadFound same
  · intro first isFirst firstIndex slot secondIndex found firstLease secondLease same
    rcases gains.origin isEntry isFirst firstLease with ⟨rfl, _, isNew⟩ |
      ⟨before, isBefore, beforeId, _, hadLease, sameActor, _⟩
    · rcases gains.origin isEntry isFirst secondLease with ⟨_, _, isOther⟩ |
        ⟨other, isOther, _, _, hadFound, otherActor, _⟩
      · exact ⟨_, _, isNew.program, isOther.program, CompiledProgram.sameImage_iff.mpr rfl⟩
      · have otherPassed := passed other isOther secondIndex found hadFound
          (same.symm.trans isNew.sid)
        exact ⟨_, _, isNew.program, otherActor.trans otherPassed.program,
          CompiledProgram.sameImage_iff.mpr rfl⟩
    · rcases gains.origin isEntry isFirst secondLease with ⟨rfl, _, isNew⟩ |
        ⟨other, isOther, otherId, _, hadFound, otherActor, _⟩
      · have beforePassed := passed before isBefore firstIndex slot hadLease (same.trans isNew.sid)
        exact ⟨_, _, sameActor.trans beforePassed.program, isNew.program,
          CompiledProgram.sameImage_iff.mpr rfl⟩
      · obtain rfl := holds.eq_of_id isBefore isOther (beforeId.symm.trans otherId)
        rw [sameActor, otherActor]
        exact holds.apart.program before isBefore firstIndex slot secondIndex found
          hadLease hadFound same
  · intro first isFirst firstIndex slot secondIndex found firstLease secondLease same ne
    rcases gains.origin isEntry isFirst firstLease with ⟨rfl, rfl, isNew⟩ |
      ⟨before, isBefore, beforeId, _, hadLease, _, _⟩
    · rcases gains.origin isEntry isFirst secondLease with ⟨_, rfl, _⟩ |
        ⟨other, isOther, _, _, hadFound, _, _⟩
      · exact absurd rfl ne
      · rw [isNew.role]
        exact (passed other isOther secondIndex found hadFound
          (same.symm.trans isNew.sid)).role.symm
    · rcases gains.origin isEntry isFirst secondLease with ⟨rfl, rfl, isNew⟩ |
        ⟨other, isOther, otherId, _, hadFound, _, _⟩
      · rw [isNew.role]
        exact (passed before isBefore firstIndex slot hadLease (same.trans isNew.sid)).role
      · obtain rfl := holds.eq_of_id isBefore isOther (beforeId.symm.trans otherId)
        exact holds.apart.roles before isBefore firstIndex slot secondIndex found
          hadLease hadFound same ne

/-! ### Steps -/

/-- What a request does to a registry: no lease is added, and only a seal of a session seals
leases; or a scan has come to its end and a lease is added. -/
inductive Effect (platform : Platform Key Ref) (layout : ActorLayout) (registry : List Registered) :
    RegistryOp Key Ref → List Registered → Prop
  | descend {op : RegistryOp Key Ref} {id : UInt16} {seals : Option UInt32}
      {next : List Registered} : AllDescend platform id seals registry next →
      (∀ sid, seals = some sid → op = .within id (.sealMembership sid)) →
      Effect platform layout registry op next
  | gain {request : EndpointLeaseRequest} {position index : Nat} {entry after : Registered} :
      registry[position]? = some entry → entry.id = request.rendezvous →
      (∀ entry ∈ registry, ∀ index slot, HasLease platform entry index slot →
        slot.sid = request.session → Passed request entry slot) →
      Gains platform layout request entry after index →
      Effect platform layout registry (.allocate request) (registry.set position after)

theorem Holds.unchanged (holds : Holds platform layout registry) (op : RegistryOp Key Ref) :
    Effect platform layout registry op registry := by
  have descend : AllDescend platform 0 none registry registry := by
    refine forall₂_same.mpr fun entry mem => ?_
    rw [ite_self]
    exact .refl (holds.kept entry mem)
  exact .descend descend nofun

/-- An admitted request returns. -/
theorem Holds.perform [DecidableEq Key] (holds : Holds platform layout registry)
    (admitted : Admits platform layout registry op) :
    ∃ reply next, perform platform layout registry op = .ok (reply, next) ∧
      Effect platform layout registry op next := by
  cases op with
  | allocate request =>
    obtain ⟨settled, room, filled, isPower, divides⟩ := admitted
    have unchanged := holds.unchanged (.allocate request)
    obtain ⟨result, isResult, sees⟩ := scanRegistry_spec request registry
      (fun entry isEntry => holds.knows isEntry fun index slot hasLease _ =>
        settled entry isEntry index slot hasLease) none 0
    rw [Registry.perform, allocateEndpointLeaseForSessionRole, isResult, Run.bind_ok]
    cases result with
    | error error => exact ⟨_, registry, rfl, unchanged⟩
    | ok target =>
      obtain ⟨passed, isTarget⟩ := sees target rfl
      cases target with
      | none => exact ⟨_, registry, rfl, unchanged⟩
      | some position =>
        rcases isTarget with isNone | ⟨other, entry, isPosition, isEntry, isId⟩
        · cases isNone
        obtain rfl : position = other := by
          have isSum := Option.some.inj isPosition
          omega
        dsimp only
        rw [isEntry]
        dsimp only
        obtain ⟨start, contents, keeps⟩ := holds.kept entry (mem_of_getElem? isEntry)
        rcases Registered.allocate_spec keeps room filled isPower divides with
          ⟨scope, isError⟩ | ⟨lease, after, isOk, gains⟩
        · rw [isError, Run.bind_ok]
          refine ⟨_, _, rfl, ?_⟩
          rwa [set_of_getElem? isEntry]
        · rw [isOk, Run.bind_ok]
          exact ⟨_, _, rfl, .gain isEntry isId passed gains⟩
  | within id op =>
    obtain ⟨reply, next, isOk, descend⟩ := holds.within admitted
    refine ⟨reply, next, isOk, .descend descend fun sid isSeal => ?_⟩
    cases op with
    | sealMembership sealedSession =>
      cases isSeal
      rfl
    | allocate | publish | release | abort | growResolvers | insertResolver | growLanes | attach
      | releaseLane | poison => cases isSeal
  | setBusy id busy =>
    exact ⟨.done, _, rfl, .descend (holds.setBusy id busy) (by simp)⟩

theorem Holds.effect (holds : Holds platform layout registry)
    (effect : Effect platform layout registry op next) : Holds platform layout next := by
  cases effect with
  | descend descend _ => exact holds.descend descend
  | gain isEntry isId passed gains => exact holds.gain isEntry isId passed gains

/-! ### Sealed sessions -/

/-- A lease of a session. -/
def SessionLease (platform : Platform Key Ref) (registry : List Registered) (sid : UInt32)
    (entry : Registered) (index : Nat) (slot : EndpointLeaseSlot) : Prop :=
  entry ∈ registry ∧ HasLease platform entry index slot ∧ slot.sid = sid

/-- All leases of a session are sealed. -/
def AllSealed (platform : Platform Key Ref) (registry : List Registered) (sid : UInt32) : Prop :=
  ∀ entry index slot, SessionLease platform registry sid entry index slot →
    slot.state = .membershipSealed

/-- A session with a sealed lease has only sealed ones. -/
def Settled (platform : Platform Key Ref) (registry : List Registered) : Prop :=
  ∀ sid entry index slot, SessionLease platform registry sid entry index slot →
    slot.state = .membershipSealed → AllSealed platform registry sid

/-- The leases of a session behind a request were there before it. -/
def Keeps (platform : Platform Key Ref) (registry next : List Registered) (sid : UInt32) : Prop :=
  ∀ entry index slot, SessionLease platform next sid entry index slot →
    ∃ before old, SessionLease platform registry sid before index old ∧ before.id = entry.id ∧
      old.generation = slot.generation

theorem Keeps.trans {first second third : List Registered}
    (isFirst : Keeps platform first second sid) (isSecond : Keeps platform second third sid) :
    Keeps platform first third sid := by
  intro entry index slot hasLease
  obtain ⟨middle, found, isMiddle, middleId, middleGeneration⟩ := isSecond entry index slot hasLease
  obtain ⟨before, old, isBefore, beforeId, beforeGeneration⟩ := isFirst middle index found isMiddle
  exact ⟨before, old, isBefore, beforeId.trans middleId, beforeGeneration.trans middleGeneration⟩

/-- A sealed session gets no lease, and its leases stay sealed. -/
theorem AllSealed.effect (allSealed : AllSealed platform registry sid)
    (hasLease : ∃ entry index slot, SessionLease platform registry sid entry index slot)
    (effect : Effect platform layout registry op next) :
    AllSealed platform next sid ∧ Keeps platform registry next sid := by
  cases effect with
  | descend descend _ =>
    -- A lease behind the request is one that was there.
    have origin : ∀ entry index slot, SessionLease platform next sid entry index slot →
        ∃ before old seals, SessionLease platform registry sid before index old ∧
          before.id = entry.id ∧ Lasts seals old slot := by
      rintro after index slot ⟨mem, isLease, isSession⟩
      obtain ⟨entry, isEntry, isNext⟩ := descend.origin mem
      obtain ⟨old, hadLease, lasts⟩ := isNext.leases index slot isLease
      exact ⟨entry, old, _, ⟨isEntry, hadLease, lasts.sid.symm.trans isSession⟩, isNext.id.symm,
        lasts⟩
    refine ⟨fun entry index slot isLease => ?_, fun entry index slot isLease => ?_⟩
    · obtain ⟨before, old, _, hadLease, _, lasts⟩ := origin entry index slot isLease
      exact lasts.sealed_iff.mpr (.inl (allSealed before index old hadLease))
    · obtain ⟨before, old, _, hadLease, sameId, lasts⟩ := origin entry index slot isLease
      exact ⟨before, old, hadLease, sameId, lasts.generation.symm⟩
  | @gain request position newIndex entry after isEntry isId passed gains =>
    have origin : ∀ other index slot,
        SessionLease platform (registry.set position after) sid other index slot →
        ∃ before, SessionLease platform registry sid before index slot ∧ before.id = other.id := by
      rintro other index slot ⟨mem, isLease, isSession⟩
      rcases gains.origin isEntry mem isLease with ⟨rfl, _, isNew⟩ |
        ⟨before, isBefore, sameId, _, hadLease, _, _⟩
      · -- The scan would have met a sealed lease.
        obtain ⟨found, foundIndex, foundSlot, hadLease⟩ := hasLease
        have isSealed := allSealed found foundIndex foundSlot hadLease
        obtain ⟨isFound, foundLease, foundSession⟩ := hadLease
        exact absurd isSealed (passed found isFound foundIndex foundSlot foundLease
          (foundSession.trans (isSession.symm.trans isNew.sid))).unsealed
      · exact ⟨before, ⟨isBefore, hadLease, isSession⟩, sameId.symm⟩
    refine ⟨fun other index slot isLease => ?_, fun other index slot isLease => ?_⟩
    · obtain ⟨before, hadLease, _⟩ := origin other index slot isLease
      exact allSealed before index slot hadLease
    · obtain ⟨before, hadLease, sameId⟩ := origin other index slot isLease
      exact ⟨before, slot, hadLease, sameId, rfl⟩

theorem isPublished_of_isOccupied (occupied : slot.isOccupied = true)
    (notReserved : slot.state ≠ .reserved) : slot.isPublished = true := by
  unfold EndpointLeaseSlot.isOccupied at occupied
  unfold EndpointLeaseSlot.isPublished
  cases isState : slot.state with
  | vacant =>
    rw [isState] at occupied
    cases occupied
  | reserved => exact absurd isState notReserved
  | published | membershipSealed => rfl

/-- A session that is sealed while none of its leases is reserved has only sealed leases. -/
theorem Settled.effect (settled : Settled platform registry)
    (holds : Holds platform layout registry) (admitted : AdmitsSettled platform layout registry op)
    (effect : Effect platform layout registry op next) : Settled platform next := by
  intro sid entry index slot isLease isSealed
  -- Either a lease of the session was sealed before, and then all were.
  have before : (∃ before index old, SessionLease platform registry sid before index old ∧
      old.state = .membershipSealed) → AllSealed platform next sid := by
    rintro ⟨found, foundIndex, old, hadLease, wasSealed⟩
    exact ((settled sid found foundIndex old hadLease wasSealed).effect
      ⟨found, foundIndex, old, hadLease⟩ effect).1
  cases effect with
  | @descend _ id seals _ descend isSeal =>
    obtain ⟨mem, hasLease, isSession⟩ := isLease
    obtain ⟨found, isFound, isNext⟩ := descend.origin mem
    obtain ⟨old, hadLease, lasts⟩ := isNext.leases index slot hasLease
    have oldSession : old.sid = sid := lasts.sid.symm.trans isSession
    rcases lasts.sealed_iff.mp isSealed with wasSealed | ⟨nowSealed, _⟩
    · exact before ⟨found, index, old, ⟨isFound, hadLease, oldSession⟩, wasSealed⟩
    -- Or the request seals the session in its rendezvous, which has all its leases.
    · split at nowSealed
      · rename_i foundId
        rw [oldSession] at nowSealed
        rw [isSeal sid nowSealed] at admitted
        rintro after otherIndex other ⟨isAfter, otherLease, otherSession⟩
        obtain ⟨second, isSecond, secondNext⟩ := descend.origin isAfter
        obtain ⟨otherOld, otherHad, otherLasts⟩ := secondNext.leases otherIndex other otherLease
        have otherSid : otherOld.sid = sid := otherLasts.sid.symm.trans otherSession
        have sameId : second.id = id :=
          (holds.apart.together second isSecond found isFound otherIndex
          otherOld index old otherHad hadLease (otherSid.trans oldSession.symm)).trans foundId
        refine otherLasts.sealed_iff.mpr
          (.inr ⟨?_, isPublished_of_isOccupied otherHad.choose_spec.2.2
          (admitted.2 second isSecond otherIndex otherOld otherHad otherSid)⟩)
        rw [if_pos sameId, nowSealed, otherSid]
      · cases nowSealed
  | @gain request position newIndex found after isEntry isId passed gains =>
    obtain ⟨mem, hasLease, isSession⟩ := isLease
    rcases gains.origin isEntry mem hasLease with ⟨_, _, isNew⟩ |
      ⟨other, isOther, _, _, hadLease, _, _⟩
    · rw [isNew.state] at isSealed
      cases isSealed
    · exact before ⟨other, index, slot, ⟨isOther, hadLease, isSession⟩, isSealed⟩

theorem settled_of_fresh [DecidableEq Key] (fresh : Fresh platform registry) :
    Settled platform registry := by
  rintro sid entry index slot ⟨isEntry, hasLease, _⟩ _
  obtain ⟨memory, slabPtr, slabLen, nonnull, fits, isNew⟩ := fresh.empty entry isEntry
  have keeps : Arena.Keeps platform _ entry.arena (Contents.empty : Contents Key Ref) :=
    isNew ▸ Arena.new_keeps platform memory nonnull fits
  obtain ⟨lease, ⟨isLease, _⟩, _⟩ := (hasLease_iff keeps).mp hasLease
  cases isLease

/-! ### Histories -/

section Histories

variable [DecidableEq Key] {registry last : List Registered}
  {visits : List (Visit (List Registered) (RegistryOp Key Ref) RegistryReply)}

omit [DecidableEq Key] in
/-- A history with settled seals is a history. -/
theorem AdmitsSettled.admits (admitted : AdmitsSettled platform layout registry op) :
    Admits platform layout registry op := by
  unfold AdmitsSettled at admitted
  split at admitted
  · exact admitted.1
  · exact admitted

theorem Holds.run (holds : Holds platform layout registry) {reply : RegistryReply}
    (admitted : Admits platform layout registry op)
    (isOk : Registry.perform platform layout registry op = .ok (reply, next)) :
    Effect platform layout registry op next := by
  obtain ⟨_, _, isOther, effect⟩ := holds.perform admitted
  cases isOk.symm.trans isOther
  exact effect

theorem Holds.history (holds : Holds platform layout registry)
    (history : History (machine platform layout) registry visits last) :
    Holds platform layout last :=
  history.invariant holds fun _ _ _ _ isHeld admitted isOk =>
    isHeld.effect (isHeld.run admitted isOk)

theorem settled_history (holds : Holds platform layout registry)
    (settled : Settled platform registry)
    (history : History (settledMachine platform layout) registry visits last) :
    Holds platform layout last ∧ Settled platform last := by
  induction history with
  | start => exact ⟨holds, settled⟩
  | step _ op admitted isOk hyp =>
    have effect := hyp.1.run admitted.admits isOk
    exact ⟨hyp.1.effect effect, hyp.2.effect hyp.1 admitted effect⟩

/-- A sealed session gets no lease while it has one. -/
theorem AllSealed.history (holds : Holds platform layout registry)
    (allSealed : AllSealed platform registry sid)
    (history : History (settledMachine platform layout) registry visits last)
    (atStart : ∃ entry index slot, SessionLease platform registry sid entry index slot)
    (hasLease : ∀ visit ∈ visits, ∃ entry index slot,
      SessionLease platform visit.state sid entry index slot) :
    Holds platform layout last ∧ AllSealed platform last sid ∧
      (∃ entry index slot, SessionLease platform last sid entry index slot) ∧
      Keeps platform registry last sid := by
  induction history with
  | start =>
    exact ⟨holds, allSealed, atStart, fun entry index slot isLease =>
      ⟨entry, slot, isLease, rfl, rfl⟩⟩
  | step _ op admitted isOk hyp =>
    obtain ⟨isHeld, isSealed, isThere, keeps⟩ := hyp fun visit mem =>
      hasLease visit (mem_append_left _ mem)
    have effect := isHeld.run admitted.admits isOk
    obtain ⟨nextSealed, nextKeeps⟩ := isSealed.effect isThere effect
    exact ⟨isHeld.effect effect, nextSealed, hasLease _ (mem_append_right _ mem_cons_self),
      keeps.trans nextKeeps⟩

/-- The leases of sessions over whole histories of a registry. Every admitted request returns, and
the program of a session is found while none of its leases is reserved. The leases of a session
are in one rendezvous, with one program and different roles. When sessions are sealed while none of
their leases is reserved, a session with a sealed lease gains no lease until all are released. -/
theorem registry_keeps_sessions {registry : List Registered} (fresh : Fresh platform registry) :
    (∀ visits last, History (machine platform layout) registry visits last →
      (∀ op, Admits platform layout last op →
        ∃ reply next, Registry.perform platform layout last op = .ok (reply, next)) ∧
      (∀ entry ∈ last, ∀ sid,
        (∀ index slot, SessionLease platform last sid entry index slot → slot.state ≠ .reserved) →
        ∃ bound, entry.endpointSessionProgram platform layout sid = .ok bound) ∧
      SessionsApart platform last) ∧
    ∀ front middle back last sid, History (settledMachine platform layout) registry front middle →
      History (settledMachine platform layout) middle back last →
      (∃ entry index slot, SessionLease platform middle sid entry index slot ∧
        slot.state = .membershipSealed) →
      (∀ visit ∈ back, ∃ entry index slot, SessionLease platform visit.state sid entry index slot) →
      Keeps platform middle last sid := by
  have holds : Holds platform layout registry := holds_of_fresh fresh
  refine ⟨fun visits last history => ?_, fun front middle back last sid first second isSealed
    hasLease => ?_⟩
  · have isHeld := holds.history history
    refine ⟨fun op admitted => ?_, fun entry isEntry sid settled => ?_, isHeld.apart⟩
    · obtain ⟨reply, next, isOk, _⟩ := isHeld.perform admitted
      exact ⟨reply, next, isOk⟩
    · obtain ⟨slots, bound, knows⟩ := isHeld.knows isEntry fun index slot isLease isSession =>
        settled index slot ⟨isEntry, isLease, isSession⟩
      exact ⟨bound, knows.program⟩
  · obtain ⟨isHeld, settled⟩ := settled_history holds (settled_of_fresh fresh) first
    obtain ⟨entry, index, slot, isLease, sealedSlot⟩ := isSealed
    exact ((settled sid entry index slot isLease sealedSlot).history isHeld second
      ⟨entry, index, slot, isLease⟩ hasLease).2.2.2

end Histories

/-! ### A session that is sealed while a lease is reserved -/

section Reopened

def smallActor : ActorLayout := ⟨0, 4, 4, by decide⟩

/-- The program of an empty image. -/
def emptyProgram : CompiledProgram := ⟨0, ⟨0, 0, 0, 0⟩, [], by decide⟩

def oneRendezvous : List Registered :=
  [⟨1, false, Arena.new (fun _ => 0) 4096 256, fun _ => none⟩]

theorem oneRendezvous_fresh : Fresh Platform.narrow oneRendezvous where
  ids := by decide
  empty := by
    rintro entry (_ | _)
    · exact ⟨_, 4096, 256, by decide, by decide, rfl⟩
    · contradiction

def slotsOf : List Registered → Run (List EndpointLeaseSlot)
  | [entry] => entry.arena.rv.endpointLeaseSlots Platform.narrow
  | _ => .error .invariant

variable {state : List Registered} {slots : List EndpointLeaseSlot}

def askFor (role : UInt8) : RegistryOp UInt32 UInt32 :=
  .allocate ⟨1, 7, role, emptyProgram, 32, 16⟩

/-- The leases of the session in a state. -/
theorem sessionLease_iff (isSlots : slotsOf state = .ok slots) (index : Nat)
    (slot : EndpointLeaseSlot) :
    (∃ entry, SessionLease Platform.narrow state 7 entry index slot) ↔
      slots[index]? = some slot ∧ slot.isOccupied = true ∧ slot.sid = 7 := by
  unfold slotsOf at isSlots
  split at isSlots
  · constructor
    · rintro ⟨other, mem, ⟨found, isFound, isSlot, occupied⟩, isSession⟩
      obtain rfl := mem_singleton.mp mem
      cases isSlots.symm.trans isFound
      exact ⟨isSlot, occupied, isSession⟩
    · rintro ⟨isSlot, occupied, isSession⟩
      exact ⟨_, mem_singleton_self _, ⟨slots, isSlots, isSlot, occupied⟩, isSession⟩
  · cases isSlots

def act : List Registered → RegistryOp UInt32 UInt32 → Run (RegistryReply × List Registered) :=
  perform Platform.narrow smallActor

def unreserved (state : List Registered) : Bool :=
  state.all fun entry => (entry.arena.rv.endpointLeaseSlots Platform.narrow).toOption.any
    fun slots => slots.all fun slot => slot.state ≠ .reserved

theorem of_unreserved (passes : unreserved state = true) (entry : Registered) (mem : entry ∈ state)
    (index : Nat) (slot : EndpointLeaseSlot)
    (hasLease : HasLease Platform.narrow entry index slot) :
    slot.state ≠ .reserved := by
  obtain ⟨slots, isSlots, isSlot, _⟩ := hasLease
  have passesEntry := all_eq_true.mp passes entry mem
  rw [isSlots] at passesEntry
  exact of_decide_eq_true (all_eq_true.mp passesEntry slot (mem_of_getElem? isSlot))

/-- A test for requests that the registry admits. -/
def permits (state : List Registered) : RegistryOp UInt32 UInt32 → Bool
  | .allocate request => unreserved state = true ∧
      smallActor.programOffset + smallActor.pointerBytes ≤ request.bytes ∧ request.bytes ≠ 0 ∧
      Layout.isPowerOfTwo request.align = true ∧ smallActor.pointerAlign ∣ request.align
  | .within _ (.allocate ..) => false
  | .within id op => state.any fun entry =>
      entry.id = id ∧ entry.arena.permits Platform.narrow op = true
  | .setBusy .. => true

theorem admits_of_permits (state : List Registered) (op : RegistryOp UInt32 UInt32)
    (passes : permits state op = true) : Admits Platform.narrow smallActor state op := by
  unfold permits at passes
  split at passes
  · obtain ⟨passes, fits⟩ := of_decide_eq_true passes
    exact ⟨of_unreserved passes, fits⟩
  · cases passes
  · rename_i op other
    obtain ⟨entry, mem, passes⟩ := any_eq_true.mp passes
    obtain ⟨isId, passes⟩ := of_decide_eq_true passes
    refine ⟨?_, entry, mem, isId, entry.arena.admits_of_permits op passes⟩
    cases op with
    | allocate => exact absurd rfl (other _ _ _ _)
    | _ => exact id
  · trivial

/-- A test that also keeps a session open while a lease is reserved. -/
def permitsSettled (state : List Registered) (op : RegistryOp UInt32 UInt32) : Bool :=
  permits state op && match op with
    | .within _ (.sealMembership _) => unreserved state
    | _ => true

theorem admits_of_permitsSettled (state : List Registered) (op : RegistryOp UInt32 UInt32)
    (passes : permitsSettled state op = true) :
    AdmitsSettled Platform.narrow smallActor state op := by
  obtain ⟨passes, isOpen⟩ := Bool.and_eq_true_iff.mp passes
  have admitted := admits_of_permits state op passes
  unfold AdmitsSettled
  split
  · exact ⟨admitted, fun entry mem index slot hasLease _ =>
      of_unreserved isOpen entry mem index slot hasLease⟩
  · exact admitted

/-- The slots at the end of two scripts, between them, and behind every request of the second. -/
def slotsAfter (test : List Registered → RegistryOp UInt32 UInt32 → Bool)
    (front back : List (RegistryOp UInt32 UInt32)) :
    Run (List (Run (List EndpointLeaseSlot))) := do
  let (_, middle) ← play act test oneRendezvous front
  let (visits, last) ← play act test middle back
  return slotsOf last :: slotsOf middle :: visits.map (slotsOf ·.state)

theorem of_slotsAfter {test : List Registered → RegistryOp UInt32 UInt32 → Bool}
    {front back : List (RegistryOp UInt32 UInt32)} {final between : Run (List EndpointLeaseSlot)}
    {behind : List (Run (List EndpointLeaseSlot))}
    (isOk : slotsAfter test front back = .ok (final :: between :: behind)) :
    ∃ first middle second last, play act test oneRendezvous front = .ok (first, middle) ∧
      play act test middle back = .ok (second, last) ∧ slotsOf middle = between ∧
      (∀ visit ∈ second, slotsOf visit.state ∈ behind) ∧ slotsOf last = final := by
  obtain ⟨⟨first, middle⟩, isFirst, isOk⟩ := Run.of_bind isOk
  obtain ⟨⟨second, last⟩, isSecond, isOk⟩ := Run.of_bind isOk
  cases isOk
  exact ⟨first, middle, second, last, isFirst, isSecond, rfl,
    fun visit mem => mem_map.mpr ⟨visit, mem, rfl⟩, rfl⟩

/-- A session with a sealed lease gains a lease before all its leases are released, when it was
sealed while a lease was reserved: that lease is published behind the seal, the sealed one is
released, and then a third one is allocated. -/
theorem sealed_session_gains_lease : ∃ front middle back last,
    History (machine Platform.narrow smallActor) oneRendezvous front middle ∧
    History (machine Platform.narrow smallActor) middle back last ∧
    (∃ entry index slot, SessionLease Platform.narrow middle 7 entry index slot ∧
      slot.state = .membershipSealed) ∧
    (∀ visit ∈ back, ∃ entry index slot,
      SessionLease Platform.narrow visit.state 7 entry index slot) ∧
    ¬ Keeps Platform.narrow middle last 7 := by
  obtain ⟨front, middle, back, last, isFront, isBack, isSealed, isHeld, isLast⟩ := of_slotsAfter
    (show slotsAfter permits
      [askFor 0, .within 1 (.publish 0 1), askFor 1, .within 1 (.sealMembership 7)]
      [.within 1 (.publish 1 2), .within 1 (.release 0 1), askFor 2] =
        .ok [.ok [⟨3, 7, 224, 32, 2, .reserved⟩, ⟨2, 7, 192, 32, 1, .published⟩],
          .ok [⟨1, 7, 224, 32, 0, .membershipSealed⟩, ⟨2, 7, 192, 32, 1, .reserved⟩],
          .ok [⟨1, 7, 224, 32, 0, .membershipSealed⟩, ⟨2, 7, 192, 32, 1, .published⟩],
          .ok [⟨1, 0, 0, 0, 0, .vacant⟩, ⟨2, 7, 192, 32, 1, .published⟩],
          .ok [⟨3, 7, 224, 32, 2, .reserved⟩, ⟨2, 7, 192, 32, 1, .published⟩]]
      by decide +kernel)
  refine ⟨front, middle, back, last, (History.of_play (machine _ _) admits_of_permits isFront).1,
    (History.of_play (machine _ _) admits_of_permits isBack).1, ?_, fun visit mem => ?_,
    fun keeps => ?_⟩
  · obtain ⟨entry, isLease⟩ := (sessionLease_iff isSealed 0 _).mpr ⟨rfl, rfl, rfl⟩
    exact ⟨entry, 0, _, isLease, rfl⟩
  · have isListed := isHeld visit mem
    simp only [mem_cons, not_mem_nil, or_false] at isListed
    rcases isListed with isSlots | isSlots | isSlots <;>
      exact (sessionLease_iff isSlots 1 _).mpr ⟨rfl, rfl, rfl⟩ |>.imp fun _ isLease =>
        ⟨1, _, isLease⟩
  · obtain ⟨entry, isLease⟩ := (sessionLease_iff isLast 0 _).mpr ⟨rfl, rfl, rfl⟩
    obtain ⟨before, old, hadLease, _, sameGeneration⟩ := keeps entry 0 _ isLease
    obtain ⟨isOld, _, _⟩ := (sessionLease_iff isSealed 0 old).mp ⟨before, hadLease⟩
    rw [← Option.some.inj isOld] at sameGeneration
    exact absurd sameGeneration (by decide)

/-- A session of two leases is sealed and one of them is released: a third one is refused, and the
other one stays. -/
theorem registry_keeps_sessions_sealed : ∃ front middle back last,
    History (settledMachine Platform.narrow smallActor) oneRendezvous front middle ∧
    History (settledMachine Platform.narrow smallActor) middle back last ∧
    slotsOf middle =
      .ok [⟨1, 7, 224, 32, 0, .membershipSealed⟩, ⟨2, 7, 192, 32, 1, .membershipSealed⟩] ∧
    slotsOf last = .ok [⟨1, 7, 224, 32, 0, .membershipSealed⟩] ∧
    Keeps Platform.narrow middle last 7 ∧ SessionsApart Platform.narrow last := by
  obtain ⟨front, middle, back, last, isFront, isBack, isSealed, isHeld, isLast⟩ := of_slotsAfter
    (show slotsAfter permitsSettled
      [askFor 0, .within 1 (.publish 0 1), askFor 1, .within 1 (.publish 1 2),
        .within 1 (.sealMembership 7)] [.within 1 (.release 1 2), askFor 2] =
        .ok (.ok [⟨1, 7, 224, 32, 0, .membershipSealed⟩] ::
          .ok [⟨1, 7, 224, 32, 0, .membershipSealed⟩, ⟨2, 7, 192, 32, 1, .membershipSealed⟩] ::
          List.replicate 2 (.ok [⟨1, 7, 224, 32, 0, .membershipSealed⟩]))
      by decide +kernel)
  have atFront := (History.of_play (settledMachine _ _) admits_of_permitsSettled isFront).1
  have atBack := (History.of_play (settledMachine _ _) admits_of_permitsSettled isBack).1
  have admits := fun state op passes => (admits_of_permitsSettled state op passes).admits
  have history := (History.of_play (machine _ _) admits isFront).1.append
    (History.of_play (machine _ _) admits isBack).1
  refine ⟨front, middle, back, last, atFront, atBack, isSealed, isLast,
    (registry_keeps_sessions oneRendezvous_fresh).2 _ _ _ _ 7 atFront atBack ?_ fun visit mem => ?_,
    ((registry_keeps_sessions oneRendezvous_fresh).1 _ _ history).2.2⟩
  · obtain ⟨entry, isLease⟩ := (sessionLease_iff isSealed 0 _).mpr ⟨rfl, rfl, rfl⟩
    exact ⟨entry, 0, _, isLease, rfl⟩
  · obtain ⟨entry, isLease⟩ :=
      (sessionLease_iff (eq_of_mem_replicate (isHeld visit mem)) 0 _).mpr ⟨rfl, rfl, rfl⟩
    exact ⟨entry, 0, _, isLease⟩

end Reopened

end Registry

end Hibana
