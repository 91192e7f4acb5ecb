/-
This file is about the reservation of a lease. Everything is planned on the slab as it
is: room for the slot, the floor behind the growth of the table, and a place above the
floor. A plan that fails leaves the slab alone; a plan that succeeds is committed
without a failure.
-/

import HibanaChoreography.Rendezvous.ArenaLeases

namespace Hibana

open Outcome ByteMemory Packing ResidentSidecar List

/-- The slots with room for one more, at an index. -/
def roomFor (leases : List (EndpointLeaseSlot × Nat)) (index : Nat) :
    List (EndpointLeaseSlot × Nat) :=
  leases ++ Rendezvous.vacantSlots (index + 1 - leases.length)

/-- The record of a reserved lease. -/
def reservedSlot (sid : UInt32) (role : UInt8) (lease : Rendezvous.ReservedLease) :
    EndpointLeaseSlot :=
  ⟨lease.generation, sid, UInt32.ofNat lease.offset, UInt32.ofNat lease.bytes, role, .reserved⟩

/-- The contents with a reserved lease. -/
def Contents.reserve {Key Ref : Type} (contents : Contents Key Ref) (sid : UInt32) (role : UInt8)
    (align : Nat) (lease : Rendezvous.ReservedLease) : Contents Key Ref :=
  { contents with
    leases := (roomFor contents.leases lease.slot.toNat).set lease.slot.toNat
      (reservedSlot sid role lease, align)
    generation := lease.generation }

namespace Rendezvous

variable {Key Ref : Type} {platform : Platform Key Ref} {rv next : Rendezvous}
  {contents : Contents Key Ref}

/-! ### Room for the slot -/

variable {leases : List (EndpointLeaseSlot × Nat)} {index : Nat} {plan : EndpointLeaseCapacityPlan}
  {sid : UInt32} {role : UInt8} {lease : ReservedLease}

theorem roomFor_of_lt (inside : index < leases.length) : roomFor leases index = leases := by
  rw [roomFor, show index + 1 - leases.length = 0 by omega]
  exact append_nil _

/-- The first vacant slot, or the place behind the table. -/
theorem findVacant (leases : List (EndpointLeaseSlot × Nat)) :
    ∃ index, ((leases.map Prod.fst).findIdx? fun slot => !slot.isOccupied).getD
        (leases.map Prod.fst).length = index ∧ index ≤ leases.length ∧
      ∀ lease, leases[index]? = some lease → lease.1.isOccupied = false := by
  cases isFound : (leases.map Prod.fst).findIdx? fun slot => !slot.isOccupied with
  | none =>
    refine ⟨leases.length, by rw [Option.getD_none, length_map], le_rfl,
      fun lease isLease => ?_⟩
    rw [getElem?_eq_none le_rfl] at isLease
    cases isLease
  | some index =>
    obtain ⟨inside, vacant, _⟩ := findIdx?_eq_some_iff_getElem.mp isFound
    rw [length_map] at inside
    rw [getElem_map] at vacant
    refine ⟨index, rfl, Nat.le_of_lt inside, fun lease isLease => ?_⟩
    obtain ⟨_, rfl⟩ := List.getElem?_eq_some_iff.mp isLease
    rwa [Bool.not_eq_true'] at vacant

/-- The plan of a capacity fails, or its floor is the image frontier behind its commit. -/
theorem Holds.planCapacity (holds : Holds platform rv contents)
    (near : index ≤ contents.leases.length) :
    (∃ scope, rv.planEndpointLeaseCapacity platform
        (if index = contents.leases.length then contents.leases.length + 1
          else contents.leases.length) = .ok (.error scope)) ∨
      ∃ plan floor next, rv.planEndpointLeaseCapacity platform
          (if index = contents.leases.length then contents.leases.length + 1
            else contents.leases.length) = .ok (.ok plan) ∧
        rv.endpointLeaseFloorAfterCapacityPlan platform plan = .ok (.ok floor) ∧
        rv.commitEndpointLeaseCapacity platform plan = .ok next ∧
        Holds platform next { contents with leases := roomFor contents.leases index } ∧
        next.imageFrontier = floor ∧ SameRange rv next ∧
        (index < contents.leases.length → next = rv) := by
  rw [planEndpointLeaseCapacity, holds.slotCount, Run.bind_ok]
  by_cases isFull : index = contents.leases.length
  swap
  · rw [if_neg isFull, if_pos le_rfl]
    refine .inr ⟨_, _, rv, rfl, rfl, rfl, ?_, rfl, .refl rv, fun _ => rfl⟩
    rw [roomFor_of_lt (by omega)]
    exact holds
  rw [if_pos isFull, if_neg (by omega)]
  by_cases isRepresentable : slotCountIsRepresentable (contents.leases.length + 1) = true
  swap
  · rw [if_pos isRepresentable]
    exact .inl ⟨_, rfl⟩
  rw [if_neg (not_not_intro isRepresentable), Layout.checkedMul]
  by_cases inDomain : (contents.leases.length + 1) * platform.leases.codec.size ≤ platform.usizeMax
  swap
  · rw [if_neg inDomain]
    exact .inl ⟨_, rfl⟩
  have few : contents.leases.length ≤ 65535 := of_decide_eq_true isRepresentable
  have filled : 0 < (contents.leases.length + 1) * platform.leases.codec.size :=
    Nat.mul_pos (Nat.succ_pos _) platform.leases.filled
  rw [if_pos inDomain]
  dsimp only
  rcases holds.planPersistentSidecarBytes filled platform.leases.isPower with isNone |
    ⟨lease, isSome, planned⟩
  · rw [isNone]
    exact .inl ⟨_, rfl⟩
  · obtain ⟨wanted, stop, next, isBest, isOk, isHeld, isFrontier, sameRange⟩ :=
      holds.commitCapacity (Nat.lt_succ_self _) (by omega) planned
    rw [isSome]
    refine .inr ⟨_, stop, next, rfl, ?_, isOk, ?_, isFrontier, sameRange,
      fun inside => absurd isFull (Nat.ne_of_lt inside)⟩
    · show (rv.packedSidecarFrontier platform _ >>= _) = _
      rw [packedSidecarFrontier, isBest]
      rfl
    · rw [roomFor, isFull]
      exact isHeld

/-! ### The reservation -/

theorem Holds.withGeneration (holds : Holds platform rv contents) (generation : UInt32) :
    Holds platform { rv with endpointLeaseGeneration := generation }
      { contents with generation } := by
  obtain ⟨space, frontier, low, high, aligned, alignable, apart⟩ := holds.resting
  refine ⟨⟨⟨space.nonnull, space.fits⟩, frontier, low, high, aligned, alignable, apart⟩,
    holds.small, holds.leases, holds.leaseCount, fun lease mem occupied => ?_, holds.apart,
    holds.lanes, holds.assoc, holds.resolvers, rfl⟩
  obtain ⟨filled, isLow, isHigh, isAligned⟩ := holds.fits lease mem occupied
  exact ⟨filled, isLow, isHigh, isAligned⟩

theorem length_roomFor (leases : List (EndpointLeaseSlot × Nat)) (index : Nat) :
    index < (roomFor leases index).length := by
  rw [roomFor, length_append, vacantSlots, length_replicate]
  omega

/-- An occupied slot of a table with more room was there before. -/
theorem mem_of_roomFor {lease : EndpointLeaseSlot × Nat} (mem : lease ∈ roomFor leases index)
    (occupied : lease.1.isOccupied = true) : lease ∈ leases :=
  (mem_append.mp mem).resolve_right fun isNew =>
    not_occupied_of_vacantSlots isNew occupied

/-- The slot with room is vacant. -/
theorem vacant_of_roomFor (near : index ≤ leases.length)
    (vacant : ∀ lease, leases[index]? = some lease → lease.1.isOccupied = false) :
    ∃ lease, (roomFor leases index)[index]? = some lease ∧ lease.1.isOccupied = false := by
  rcases Nat.lt_or_ge index leases.length with inside | isEnd
  · refine ⟨leases[index], ?_, vacant _ (getElem?_eq_getElem inside)⟩
    rw [roomFor, getElem?_append_left inside, getElem?_eq_getElem inside]
  · refine ⟨(.empty, 1), ?_, rfl⟩
    rw [roomFor, getElem?_append_right isEnd, vacantSlots, getElem?_replicate,
      if_pos (by omega)]

/-- A lease at a free place of the slab is reserved. -/
theorem Holds.reserve {grown : Rendezvous} (holds : Holds platform rv contents)
    {bytes align floor offset : Nat} (place : FreePlace rv contents bytes align floor offset)
    (filled : 0 < bytes) (smallBytes : bytes ≤ u32Max) (smallOffset : offset ≤ u32Max)
    (smallIndex : index ≤ 65535) (near : index ≤ contents.leases.length)
    (vacant : ∀ lease, contents.leases[index]? = some lease → lease.1.isOccupied = false)
    (fresh : rv.endpointLeaseGeneration.toNat ≠ u32Max)
    (isCommit : rv.commitEndpointLeaseCapacity platform plan = .ok grown)
    (isGrown : Holds platform grown { contents with leases := roomFor contents.leases index })
    (isFloor : grown.imageFrontier = floor) (sameRange : SameRange rv grown) (sid : UInt32)
    (role : UInt8) :
    ∃ lease next, rv.reserveEndpointLease platform sid role bytes offset index plan =
        .ok (lease, next) ∧
      lease = ⟨UInt16.ofNat index, contents.generation + 1, offset, bytes⟩ ∧
      Holds platform next (contents.reserve sid role align lease) ∧ SameRange rv next ∧
      next.imageFrontier = grown.imageFrontier := by
  have inside := length_roomFor contents.leases index
  obtain ⟨old, isOld, isVacant⟩ := vacant_of_roomFor near vacant
  have sameGeneration : grown.endpointLeaseGeneration = contents.generation := isGrown.generation
  have isIndex : (UInt16.ofNat index).toNat = index :=
    UInt16.toNat_ofNat_of_lt (Nat.lt_succ_of_le smallIndex)
  have isStart : (UInt32.ofNat offset).toNat = offset :=
    UInt32.toNat_ofNat_of_lt (Nat.lt_succ_of_le smallOffset)
  have isLen : (UInt32.ofNat bytes).toNat = bytes :=
    UInt32.toNat_ofNat_of_lt (Nat.lt_succ_of_le smallBytes)
  let lease : ReservedLease := ⟨UInt16.ofNat index, contents.generation + 1, offset, bytes⟩
  have startEq : leaseStart (reservedSlot sid role lease, align) = offset := isStart
  have endEq : leaseEnd (reservedSlot sid role lease, align) = offset + bytes := by
    show (UInt32.ofNat offset).toNat + (UInt32.ofNat bytes).toNat = offset + bytes
    rw [isStart, isLen]
  obtain ⟨next, isOk, isHeld, isRange, sameFrontier⟩ :=
    (isGrown.withGeneration (contents.generation + 1)).writeSlot inside
      (reservedSlot sid role lease, align)
      (fun _ => by
        refine ⟨by rw [startEq, endEq]; omega, ?_, ?_, ?_⟩
        · rw [startEq]
          rw [isFloor]
          exact place.low
        · rw [endEq]
          rw [sameRange.slabLen]
          exact place.high
        · rw [startEq]
          rw [sameRange.slabPtr]
          exact place.aligned)
      fun position isInside _ _ occupied => by
        rw [startEq, endEq]
        exact place.apart _ (mem_of_roomFor (getElem_mem isInside) occupied) occupied
  refine ⟨lease, next, ?_, rfl, ?_, ⟨isRange.slabPtr.trans sameRange.slabPtr,
    isRange.slabLen.trans sameRange.slabLen, isRange.laneBase.trans sameRange.laneBase,
    isRange.laneEnd.trans sameRange.laneEnd, isRange.laneSlots.trans sameRange.laneSlots,
    isRange.assocSlots.trans sameRange.assocSlots⟩, sameFrontier⟩
  · have isNext : grown.nextEndpointLeaseGeneration = some (contents.generation + 1,
        { grown with endpointLeaseGeneration := contents.generation + 1 }) := by
      rw [nextEndpointLeaseGeneration, sameGeneration, if_neg]
      rwa [← holds.generation]
    rw [reserveEndpointLease, isCommit, Run.bind_ok, isGrown.slotByIndex, Run.bind_ok, isOld]
    dsimp only [Option.map_some]
    rw [if_neg (ne_true_of_eq_false isVacant), isNext]
    exact (congrArg (· >>= _) isOk).trans rfl
  · rw [Contents.reserve, show lease.slot.toNat = index from isIndex]
    exact isHeld

theorem Holds.checkLeaseStorage (holds : Holds platform rv contents) :
    rv.checkLeaseStorage platform = .ok () := by
  have inSpace := holds.resting.space.fits
  have frontier := holds.resting.frontier
  rw [Rendezvous.checkLeaseStorage, Layout.add_ok inSpace, Run.bind_ok,
    show rv.endpointLeaseStorage.isEmpty = .ok (decide _) from
      holds.resting.isEmpty_storageOf .endpointLeases, Run.bind_ok]
  by_cases live : rv.storageOf .endpointLeases = .empty
  · rw [if_pos (decide_eq_true live)]
    rfl
  · have low : rv.slabPtr ≤ rv.endpointLeaseStorage.ptr := (holds.seated live).low
    have high : rv.endpointLeaseStorage.ptr + rv.endpointLeaseStorage.bytes ≤ _ :=
      (holds.seated live).high
    rw [if_neg fun isTrue => live (of_decide_eq_true isTrue), Layout.add_ok (by omega), Run.bind_ok,
      if_neg (by omega)]
    rfl

variable {bytes align : Nat}

/-- An allocation fails and leaves the slab alone, or it reserves a lease. -/
theorem Holds.allocate (holds : Holds platform rv contents) (sid : UInt32) (role : UInt8)
    (filled : 0 < bytes) (isPower : Layout.isPowerOfTwo align = true) :
    (∃ scope, rv.allocateEndpointLease platform sid role bytes align = .ok (.error scope, rv)) ∨
      ∃ lease next, rv.allocateEndpointLease platform sid role bytes align = .ok (.ok lease, next) ∧
        contents.generation.toNat < u32Max ∧ lease.generation = contents.generation + 1 ∧
        (∀ old, contents.leases[lease.slot.toNat]? = some old → old.1.isOccupied = false) ∧
        Holds platform next (contents.reserve sid role align lease) ∧ SameRange rv next ∧
        lease.slot.toNat ≤ contents.leases.length ∧
        (lease.slot.toNat < contents.leases.length → next.imageFrontier = rv.imageFrontier) := by
  rw [allocateEndpointLease]
  by_cases refused : u32Max < bytes ∨ rv.endpointLeaseGeneration.toNat = u32Max
  · rw [if_pos refused]
    exact .inl ⟨_, rfl⟩
  obtain ⟨index, isIndex, near, vacant⟩ := findVacant contents.leases
  rw [if_neg refused, holds.slots, Run.bind_ok]
  dsimp only
  rw [isIndex, length_map]
  by_cases noSlot : index = contents.leases.length ∧ platform.usizeMax < contents.leases.length + 1
  · rw [if_pos noSlot]
    exact .inl ⟨_, rfl⟩
  rw [if_neg noSlot]
  rcases holds.planCapacity near with ⟨scope, isError⟩ |
    ⟨plan, floor, grown, isPlan, isFloor, isCommit, isGrown, isFrontier, sameRange, retained⟩
  · rw [isError]
    exact .inl ⟨_, rfl⟩
  rw [isPlan, Run.bind_ok]
  dsimp only
  rw [isFloor, Run.bind_ok]
  dsimp only
  rw [holds.checkLeaseStorage, Run.bind_ok, placeEndpointLease]
  rcases holds.planEndpointLeaseOffset isPower floor with ⟨scope, isError⟩ |
    ⟨offset, isPlace, place⟩
  · rw [isError]
    exact .inl ⟨_, rfl⟩
  rw [isPlace, Run.bind_ok]
  dsimp only
  by_cases tooHigh : u32Max < offset ∨ 65535 < index
  · rw [if_pos tooHigh]
    exact .inl ⟨_, rfl⟩
  have fresh : rv.endpointLeaseGeneration.toNat ≠ u32Max := fun isMax => refused (.inr isMax)
  obtain ⟨lease, next, isOk, isLease, isHeld, isRange, sameFrontier⟩ := holds.reserve place filled
    (by omega) (by omega) (by omega) near vacant fresh isCommit isGrown isFrontier
    sameRange sid role
  have isSlot : lease.slot.toNat = index := by
    rw [isLease]
    exact UInt16.toNat_ofNat_of_lt (Nat.lt_succ_of_le (show index ≤ 65535 by omega))
  rw [if_neg tooHigh, isOk]
  refine .inr ⟨lease, next, rfl, ?_, by rw [isLease], isSlot ▸ vacant, isHeld, isRange,
    isSlot ▸ near, fun inside => ?_⟩
  · rw [← holds.generation]
    have bound := rv.endpointLeaseGeneration.toNat_lt
    unfold u32Max at fresh ⊢
    omega
  · rw [sameFrontier, retained (isSlot ▸ inside)]

theorem reserveEndpointLease_place {bytes offset slotIndex : Nat}
    (isOk : rv.reserveEndpointLease platform sid role bytes offset slotIndex plan =
      .ok (lease, next)) : lease.bytes = bytes ∧ lease.offset = offset := by
  iterate 2 obtain ⟨_, _, isOk⟩ := Run.of_bind isOk
  split at isOk
  · cases isOk
  · split at isOk
    · cases isOk
    · split at isOk
      · cases isOk
      · obtain ⟨_, _, isOk⟩ := Run.of_bind isOk
        rw [← (Prod.mk.inj (Except.ok.inj isOk)).1]
        exact ⟨rfl, rfl⟩

theorem placeEndpointLease_place {bytes align slotIndex floor : Nat}
    (isOk : rv.placeEndpointLease platform sid role bytes align slotIndex plan floor =
      .ok (.ok lease, next)) : lease.bytes = bytes ∧ lease.offset ≤ u32Max := by
  obtain ⟨placed, _, isOk⟩ := Run.of_bind isOk
  split at isOk
  · cases isOk
  · split at isOk
    · cases isOk
    · rename_i inDomain
      obtain ⟨⟨reserved, after⟩, isReserved, isOk⟩ := Run.of_bind isOk
      obtain rfl : reserved = lease := Except.ok.inj (Prod.mk.inj (Except.ok.inj isOk)).1
      obtain ⟨isBytes, isOffset⟩ := reserveEndpointLease_place isReserved
      exact ⟨isBytes, by omega⟩

/-- A reserved lease has the requested length, and its place is in the domain of offsets. -/
theorem allocateEndpointLease_place
    (isOk : rv.allocateEndpointLease platform sid role bytes align = .ok (.ok lease, next)) :
    lease.bytes = bytes ∧ bytes ≤ u32Max ∧ lease.offset ≤ u32Max := by
  unfold allocateEndpointLease at isOk
  split at isOk
  · cases isOk
  · rename_i small
    obtain ⟨slots, _, isOk⟩ := Run.of_bind isOk
    dsimp only at isOk
    generalize (slots.findIdx? fun slot => !slot.isOccupied).getD slots.length = index at isOk
    split at isOk
    · cases isOk
    · obtain ⟨planned, _, isOk⟩ := Run.of_bind isOk
      split at isOk
      · cases isOk
      · obtain ⟨floored, _, isOk⟩ := Run.of_bind isOk
        split at isOk
        · cases isOk
        · obtain ⟨_, _, isOk⟩ := Run.of_bind isOk
          obtain ⟨isBytes, inDomain⟩ := placeEndpointLease_place isOk
          exact ⟨isBytes, by omega, inDomain⟩

end Rendezvous

end Hibana
