/-
This file is about an allocation of a lease that is aborted at once.

There is no log of what the allocation did. The table of the slots may have grown into
a new block, and all blocks may have moved; the abort makes the slot vacant, gives up
the vacant slots at the end of the table, and packs the blocks again. It comes back to
the slots that were there because a table never ends with a vacant slot between two
requests, and the image frontier comes back because no arrangement of the blocks ends
before the packed one.
-/

import HibanaChoreography.Rendezvous.ArenaRuns

namespace Hibana

open Outcome ByteMemory Packing Machines ResidentSidecar List

namespace Rendezvous

/-! ### Tables that end with an occupied slot -/

section Trimmed

variable {leases : List (EndpointLeaseSlot × Nat)} {index : Nat}

/-- A table without vacant slots at its end. -/
def Trimmed (leases : List (EndpointLeaseSlot × Nat)) : Prop := occupiedSlots leases = leases

theorem trimmed_iff : Trimmed leases ↔
    ∀ lease, leases[leases.length - 1]? = some lease → lease.1.isOccupied = true := by
  rw [Trimmed, occupiedSlots, rdropWhile_eq_self_iff, ← getLast?_eq_getElem?]
  constructor
  · intro last lease isLast
    have nonempty : leases ≠ [] := by
      rintro rfl
      cases isLast
    rw [getLast?_eq_some_getLast nonempty] at isLast
    rw [← Option.some.inj isLast, ← Bool.not_eq_false]
    exact fun isVacant => last nonempty (by rw [isVacant]; rfl)
  · intro last nonempty isVacant
    rw [last _ (getLast?_eq_some_getLast nonempty)] at isVacant
    cases isVacant

theorem trimmed_occupiedSlots (leases : List (EndpointLeaseSlot × Nat)) :
    Trimmed (occupiedSlots leases) := rdropWhile_idempotent _ _

theorem Trimmed.map (trimmed : Trimmed leases)
    {change : EndpointLeaseSlot × Nat → EndpointLeaseSlot × Nat}
    (stays : ∀ lease, lease.1.isOccupied = true → (change lease).1.isOccupied = true) :
    Trimmed (leases.map change) := by
  rw [trimmed_iff] at trimmed ⊢
  intro lease isLast
  rw [length_map, getElem?_map] at isLast
  obtain ⟨old, isOld, rfl⟩ := Option.map_eq_some_iff.mp isLast
  exact stays old (trimmed old isOld)

variable {lease : EndpointLeaseSlot × Nat}

/-- The last slot stays occupied when an occupied one is set, or another one. -/
theorem Trimmed.set (trimmed : Trimmed leases)
    (kept : lease.1.isOccupied = true ∨ index + 1 ≠ leases.length) :
    Trimmed (leases.set index lease) := by
  rw [trimmed_iff] at trimmed ⊢
  intro last isLast
  rw [length_set, getElem?_set] at isLast
  split at isLast
  · rename_i isIndex
    split at isLast
    · cases isLast
      exact kept.resolve_right fun ne => ne (by omega)
    · cases isLast
  · exact trimmed last isLast

/-- A table grows by as many slots as its new last one needs. -/
theorem length_roomFor_of_le (beyond : leases.length ≤ index) :
    (roomFor leases index).length = index + 1 := by
  rw [roomFor, length_append, vacantSlots, length_replicate]
  omega

theorem Trimmed.reserved (trimmed : Trimmed leases) (occupied : lease.1.isOccupied = true) :
    Trimmed ((roomFor leases index).set index lease) := by
  rcases Nat.lt_or_ge index leases.length with inside | beyond
  · rw [roomFor_of_lt inside]
    exact trimmed.set (.inl occupied)
  · rw [trimmed_iff]
    intro last isLast
    rw [length_set, length_roomFor_of_le beyond, Nat.add_sub_cancel,
      getElem?_set_self (by rw [length_roomFor_of_le beyond]; exact Nat.lt_succ_self _)] at isLast
    rwa [← Option.some.inj isLast]

/-- A vacant slot that is reserved and released leaves the table as it was, up to the records of
vacant slots. -/
theorem Trimmed.released (trimmed : Trimmed leases) (near : index ≤ leases.length)
    (vacant : ∀ old, leases[index]? = some old → old.1.isOccupied = false)
    (lease : EndpointLeaseSlot × Nat) (generation : UInt32) :
    (releasedSlots ((roomFor leases index).set index lease) index generation).length =
        leases.length ∧
      ∀ (position : Nat) (record : EndpointLeaseSlot × Nat), record.1.isOccupied = true →
        ((releasedSlots ((roomFor leases index).set index lease) index generation)[position]? =
          some record ↔ leases[position]? = some record) := by
  rw [releasedSlots, set_set]
  rcases Nat.lt_or_eq_of_le near with inside | rfl
  · have notLast : index + 1 ≠ leases.length := fun isLast => by
      have occupied := trimmed_iff.mp trimmed leases[index] (by
        rw [← isLast]
        exact getElem?_eq_getElem inside)
      rw [vacant _ (getElem?_eq_getElem inside)] at occupied
      cases occupied
    rw [roomFor_of_lt inside, show occupiedSlots _ = _ from trimmed.set (.inr notLast)]
    refine ⟨length_set, fun position record occupied => ?_⟩
    rw [getElem?_set]
    split
    · rename_i isIndex
      subst isIndex
      constructor
      · intro isRecord
        rw [← Option.some.inj isRecord] at occupied
        cases occupied
      · intro isRecord
        rw [vacant record isRecord] at occupied
        cases occupied
    · rfl
  · have isVacated : (roomFor leases leases.length).set leases.length
        ({ EndpointLeaseSlot.empty with generation }, 1) =
        leases ++ [({ EndpointLeaseSlot.empty with generation }, 1)] := by
      rw [roomFor, Nat.add_sub_cancel_left, set_append_right _ _ le_rfl, Nat.sub_self]
      rfl
    rw [isVacated, occupiedSlots, rdropWhile_concat_pos _ _ _ rfl]
    rw [show leases.rdropWhile _ = leases from trimmed]
    exact ⟨rfl, fun _ _ _ => Iff.rfl⟩

end Trimmed

section Effects

variable {Key Ref : Type} [DecidableEq Key] {contents : Contents Key Ref}

/-- No request leaves vacant slots at the end of the table. -/
theorem Trimmed.effect (trimmed : Trimmed contents.leases) (op : ArenaOp Key Ref)
    (reply : ArenaReply) : Trimmed (op.effect reply contents).leases := by
  unfold ArenaOp.effect
  split
  · exact trimmed.reserved rfl
  · rename_i slot _ _
    rw [trimmed_iff] at trimmed ⊢
    intro lease isLast
    rw [length_modify, getElem?_modify] at isLast
    obtain ⟨old, isOld, rfl⟩ := Option.map_eq_some_iff.mp isLast
    split
    · rfl
    · exact trimmed old isOld
  · exact trimmed.map fun lease occupied => by
      unfold sealedLease
      split
      · rfl
      · exact occupied
  · exact trimmed_occupiedSlots _
  · exact trimmed_occupiedSlots _
  all_goals exact trimmed

theorem trimmed_effects (visits : List (Visit Arena (ArenaOp Key Ref) ArenaReply)) :
    Trimmed (effects ArenaOp.effect (Contents.empty : Contents Key Ref) visits).leases := by
  induction visits using List.reverseRecOn with
  | nil => rfl
  | append_singleton visits visit hyp =>
    rw [effects_append]
    exact hyp.effect visit.op visit.reply

end Effects

/-! ### Allocation and abort -/

variable {Key Ref : Type} {platform : Platform Key Ref} {rv next : Rendezvous}
  {contents : Contents Key Ref}

/-- A slab with the slots, the attachments and the resolvers of another one, and a frontier that is
not higher. The record of a vacant slot is free. -/
structure Restored (platform : Platform Key Ref) (rv next : Rendezvous) : Prop where
  generation : next.endpointLeaseGeneration = rv.endpointLeaseGeneration
  slots : ∃ before after, rv.endpointLeaseSlots platform = .ok before ∧
    next.endpointLeaseSlots platform = .ok after ∧ after.length = before.length ∧
    ∀ (index : Nat) (slot : EndpointLeaseSlot), slot.isOccupied = true →
      (after[index]? = some slot ↔ before[index]? = some slot)
  attachments : ∀ sid lane count,
    next.lanes.Attached sid lane count ↔ rv.lanes.Attached sid lane count
  faults : ∀ sid, next.lanes.sessionFault sid = rv.lanes.sessionFault sid
  resolvers : next.resolverEntries platform = rv.resolverEntries platform
  frontier : next.imageFrontier ≤ rv.imageFrontier

/-- An allocation of a slab without vacant slots at the end of its table fails and leaves the slab
alone, or its abort restores the slab. -/
theorem Holds.allocate_abort (holds : Holds platform rv contents) (ranged : Ranged rv)
    (trimmed : Trimmed contents.leases) (sid : UInt32) (role : UInt8) {bytes align : Nat}
    (filled : 0 < bytes) (isPower : Layout.isPowerOfTwo align = true) :
    (∃ scope, rv.allocateEndpointLease platform sid role bytes align = .ok (.error scope, rv)) ∨
      ∃ lease reserved next, rv.allocateEndpointLease platform sid role bytes align =
          .ok (.ok lease, reserved) ∧
        reserved.abortEndpointLeaseReservation platform lease.slot lease.generation = .ok next ∧
        Restored platform rv next := by
  rcases holds.allocate sid role filled isPower with isError | ⟨lease, reserved, isOk, small,
    isGeneration, vacant, isReserved, sameRange, near, sameFrontier⟩
  · exact .inl isError
  have isLease : (contents.reserve sid role align lease).leases[lease.slot.toNat]? =
      some (reservedSlot sid role lease, align) := getElem?_set_self (length_roomFor _ _)
  have pos : lease.generation ≠ 0 := fun isZero => by
    have isNext := Arena.toNat_next small
    rw [← isGeneration, isZero] at isNext
    exact absurd isNext (Nat.succ_ne_zero _).symm
  obtain ⟨next, isAborted, isNext, isRanged, sameSlab, lowered, tight⟩ :=
    isReserved.abort (ranged.congr sameRange) isLease rfl rfl rfl pos
  refine .inr ⟨lease, reserved, next, isOk, isAborted, ?_⟩
  obtain ⟨sameLength, sameRecords⟩ := trimmed.released near vacant
    (reservedSlot sid role lease, align) lease.generation
  have before : rv.lanes.Represents platform.usizeMax contents.attachments :=
    ranged.tableRange ▸ holds.lanes
  have after : next.lanes.Represents platform.usizeMax contents.attachments :=
    isRanged.tableRange ▸ isNext.lanes
  refine ⟨?_, ⟨_, _, holds.slots, isNext.slots, ?_, ?_⟩, fun sid lane count => ?_,
    fun sid => ?_, ?_, ?_⟩
  · rw [isNext.generation, holds.generation]
    show lease.generation - 1 = contents.generation
    rw [isGeneration]
    exact UInt32.add_sub_cancel _ _
  · rw [length_map, length_map]
    exact sameLength
  · intro index slot occupied
    rw [getElem?_map, getElem?_map, Option.map_eq_some_iff, Option.map_eq_some_iff]
    constructor
    · rintro ⟨record, isRecord, rfl⟩
      exact ⟨record, (sameRecords index record occupied).mp isRecord, rfl⟩
    · rintro ⟨record, isRecord, rfl⟩
      exact ⟨record, (sameRecords index record occupied).mpr isRecord, rfl⟩
  · rw [after.isMap.counted, before.isMap.counted]
  · rw [after.sessionFault_eq, before.sessionFault_eq]
  · rw [isNext.resolverEntries, holds.resolverEntries]
    rfl
  · -- a table that has grown is packed again, and the first arrangement bounds the packed one
    rcases Nat.lt_or_eq_of_le near with inTable | isEnd
    · exact lowered.frontier.trans (Nat.le_of_eq (sameFrontier inTable))
    · have grown : (contents.reserve sid role align lease).leases.length =
          contents.leases.length + 1 := by
        rw [Contents.reserve, length_set, length_roomFor_of_le (Nat.le_of_eq isEnd.symm), isEnd]
      have isTight := tight (by
        rw [grown]
        exact Nat.ne_of_lt (Nat.lt_succ_of_le (Nat.le_of_eq sameLength)))
      exact isTight.frontier_le isNext holds (sameSlab.1.trans sameRange.slabPtr)
        (Nat.le_of_eq sameLength) (lowered.assocSlots.trans (Nat.le_of_eq sameRange.assocSlots))
        le_rfl

end Rendezvous

namespace Arena

open Rendezvous

variable {Key Ref : Type} [DecidableEq Key] {platform : Platform Key Ref} {arena : Arena}

/-- In every state of a slab an allocation fails and changes nothing, or its abort restores the
slab. -/
theorem allocation_abort_restores {memory : Memory} {slabPtr slabLen : Nat} (nonnull : 0 < slabPtr)
    (fits : slabPtr + slabLen ≤ platform.usizeMax)
    {visits : List (Visit Arena (ArenaOp Key Ref) ArenaReply)}
    (history : History (machine platform) (new memory slabPtr slabLen) visits arena)
    (sid : UInt32) (role : UInt8) {bytes align : Nat} (filled : bytes ≠ 0)
    (isPower : Layout.isPowerOfTwo align = true) :
    (∃ scope, arena.rv.allocateEndpointLease platform sid role bytes align =
        .ok (.error scope, arena.rv)) ∨
      ∃ lease reserved next, arena.rv.allocateEndpointLease platform sid role bytes align =
          .ok (.ok lease, reserved) ∧
        reserved.abortEndpointLeaseReservation platform lease.slot lease.generation = .ok next ∧
        Restored platform arena.rv next := by
  have keeps := (new_keeps platform memory nonnull fits).history history
  exact keeps.holds.allocate_abort keeps.ranged (trimmed_effects visits) sid role
    (Nat.pos_of_ne_zero filled) isPower

/-- A slab with a published lease, a resolver and an attachment is restored when a second lease is
allocated and aborted. -/
theorem allocation_abort_restores_occupied :
    ∃ (arena : Arena) (lease : ReservedLease) (reserved next : Rendezvous),
      arena.rv.endpointLeaseSlots Platform.narrow = .ok [⟨1, 7, 224, 32, 0, .published⟩] ∧
      arena.rv.resolverEntries Platform.narrow = .ok [some (5, 6)] ∧
      arena.rv.lanes.assoc.hasEntry arena.rv.lanes.memory 0 7 = true ∧
      arena.rv.allocateEndpointLease Platform.narrow 7 1 32 16 = .ok (.ok lease, reserved) ∧
      reserved.abortEndpointLeaseReservation Platform.narrow lease.slot lease.generation =
        .ok next ∧ Restored Platform.narrow arena.rv next := by
  have run : (do
      let played ← playNarrow [.allocate 7 0 32 16, .publish 0 1, .growResolvers 1,
        .insertResolver 5 6, .growLanes 1 1, .attach 7 0]
      let rv := played.2.rv
      let slots ← rv.endpointLeaseSlots Platform.narrow
      let entries ← rv.resolverEntries Platform.narrow
      let allocated ← rv.allocateEndpointLease Platform.narrow 7 1 32 16
      return (slots, entries, rv.lanes.assoc.hasEntry rv.lanes.memory 0 7, allocated.1.toBool)) =
        .ok ([⟨1, 7, 224, 32, 0, .published⟩], [some (5, 6)], true, true) := by
    decide +kernel
  obtain ⟨⟨visits, arena⟩, isPlayed, run⟩ := Run.of_bind run
  obtain ⟨slots, isSlots, run⟩ := Run.of_bind run
  obtain ⟨entries, isEntries, run⟩ := Run.of_bind run
  obtain ⟨⟨result, after⟩, isResult, run⟩ := Run.of_bind run
  simp only [pure, Except.pure, Except.ok.injEq, Prod.mk.injEq] at run
  obtain ⟨rfl, rfl, hasEntry, succeeds⟩ := run
  obtain ⟨history, _⟩ := History.of_play (machine _) admits_of_permits isPlayed
  rcases allocation_abort_restores (by decide) (by decide) history 7 1 (show 32 ≠ 0 by decide)
    (show Layout.isPowerOfTwo 16 = true by decide) with
    ⟨scope, isError⟩ | ⟨lease, reserved, next, isOk, isAborted, restored⟩
  · cases isResult.symm.trans isError
    cases succeeds
  · exact ⟨arena, lease, reserved, next, isSlots, isEntries, hasEntry, isOk, isAborted, restored⟩

/-- In every state of a slab an admitted release returns. The frontier and the table of associations
do not grow, and when the table of leases gets shorter no arrangement of the blocks ends earlier. -/
theorem release_lowers_frontier {memory : Memory} {slabPtr slabLen : Nat} (nonnull : 0 < slabPtr)
    (fits : slabPtr + slabLen ≤ platform.usizeMax)
    {visits : List (Visit Arena (ArenaOp Key Ref) ArenaReply)}
    (history : History (machine platform) (new memory slabPtr slabLen) visits arena)
    {slot : UInt16} {generation : UInt32}
    (admitted : arena.Admits platform (.release slot generation)) :
    ∃ next, arena.rv.releaseEndpointLease platform slot generation = .ok next ∧
      Lowered arena.rv next ∧ ((next.endpointLeaseSlots platform).map List.length ≠
        (arena.rv.endpointLeaseSlots platform).map List.length → Tight platform next) := by
  have keeps := (new_keeps platform memory nonnull fits).history history
  obtain ⟨_, hasSlot, isGeneration, occupied⟩ := admitted
  obtain ⟨lease, isLease, rfl⟩ := keeps.hasSlot hasSlot
  obtain ⟨next, isNext, holds, _, _, lowered, tight⟩ :=
    keeps.holds.release keeps.ranged isLease occupied isGeneration
  refine ⟨next, isNext, lowered, fun fewer => tight fun same => fewer ?_⟩
  rw [holds.slots, keeps.holds.slots, Run.map_ok, Run.map_ok, length_map, length_map, same]

/-- The only lease of a slab is released. -/
theorem release_lowers_frontier_first : ∃ (arena : Arena) (next : Rendezvous),
    arena.rv.releaseEndpointLease Platform.narrow 0 1 = .ok next ∧ Lowered arena.rv next := by
  have run : (do
      let (_, arena) ← playNarrow [.allocate 7 0 64 16]
      return arena.permits Platform.narrow (.release 0 1)) = .ok true := by
    decide +kernel
  obtain ⟨⟨visits, arena⟩, isPlayed, run⟩ := Run.of_bind run
  obtain ⟨history, _⟩ := History.of_play (machine _) admits_of_permits isPlayed
  obtain ⟨next, isNext, lowered, _⟩ := release_lowers_frontier (by decide) (by decide) history
    (admits_of_permits arena (.release 0 1) (Except.ok.inj run))
  exact ⟨arena, next, isNext, lowered⟩

end Arena

end Hibana
