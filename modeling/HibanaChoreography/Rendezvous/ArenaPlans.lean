/-
This file is about plans in the slab of a rendezvous: a gap for a block of a table, and
a place for a lease.

The search for a gap passes a block of a table in every round, and the search for a
place passes a lease, so both end. What they find is aligned and free.
-/

import HibanaChoreography.Rendezvous.Arena
import HibanaChoreography.Rendezvous.LeasePlaces

namespace Hibana

open Outcome ByteMemory Packing ResidentSidecar

namespace Rendezvous

variable {Key Ref : Type} {platform : Platform Key Ref} {rv : Rendezvous}
  {contents : Contents Key Ref}

/-! ### Blocks -/

/-- A planned block is aligned, free, and below the leases. -/
structure Planned (rv : Rendezvous) (contents : Contents Key Ref) (bytes align : Nat)
    (lease : PersistentSidecarLease) : Prop where
  size : lease.storage.bytes = bytes
  low : rv.slabPtr ≤ lease.storage.ptr
  aligned : lease.storage.ptr % align = 0
  high : lease.storage.ptr + bytes ≤ rv.slabPtr + lease.imageFrontier
  raises : rv.imageFrontier ≤ lease.imageFrontier
  inSlab : lease.imageFrontier ≤ rv.slabLen
  small : lease.imageFrontier ≤ u32Max
  below : ∀ other ∈ contents.leases, other.1.isOccupied = true →
    lease.imageFrontier ≤ leaseStart other
  apart : ∀ kind, (rv.storageOf kind).ptr + (rv.storageOf kind).bytes ≤ lease.storage.ptr ∨
    lease.storage.ptr + bytes ≤ (rv.storageOf kind).ptr

/-- The range of a live block. -/
def liveRange (rv : Rendezvous) (resident : ResidentSidecar) : Option (Nat × Nat) :=
  if isLive resident then
    some (resident.ptr - rv.slabPtr, resident.ptr - rv.slabPtr + resident.bytes)
  else none

/-- A block that is not in the way leaves the conflict as it is. -/
theorem foldl_addConflict (start stop : Nat) (ranges : List (Option (Nat × Nat)))
    (seen : Option Nat) :
    (ranges.foldl (addConflict start stop) seen = none → seen = none ∧
      ∀ low high, some (low, high) ∈ ranges → sidecarRangesOverlap start stop low high = false) ∧
    ∀ next, ranges.foldl (addConflict start stop) seen = some next →
      (∃ before, seen = some before ∧ before ≤ next) ∨
      ∃ low high, some (low, high) ∈ ranges ∧
        sidecarRangesOverlap start stop low high = true ∧ high ≤ next := by
  induction ranges generalizing seen with
  | nil =>
    exact ⟨fun isNone => ⟨isNone, nofun⟩, fun next isNext => .inl ⟨next, isNext, Nat.le_refl next⟩⟩
  | cons range rest hyp =>
    obtain ⟨ifNone, ifSome⟩ := hyp (addConflict start stop seen range)
    rw [List.foldl_cons]
    refine ⟨fun isNone => ?_, fun next isNext => ?_⟩
    · obtain ⟨seenNone, others⟩ := ifNone isNone
      cases range with
      | none =>
        refine ⟨seenNone, fun low high mem => others low high ?_⟩
        exact (List.mem_cons.mp mem).resolve_left nofun
      | some range =>
        obtain ⟨first, last⟩ := range
        by_cases overlaps : sidecarRangesOverlap start stop first last = true
        · rw [addConflict, if_pos overlaps] at seenNone
          cases seenNone
        · rw [addConflict, if_neg overlaps] at seenNone
          refine ⟨seenNone, fun low high mem => ?_⟩
          rcases List.mem_cons.mp mem with same | inRest
          · cases same
            exact Bool.eq_false_iff.mpr overlaps
          · exact others low high inRest
    · rcases ifSome next isNext with ⟨before, isBefore, below⟩ | ⟨low, high, mem, isConflict⟩
      · cases range with
        | none => exact .inl ⟨before, isBefore, below⟩
        | some range =>
          obtain ⟨first, last⟩ := range
          by_cases overlaps : sidecarRangesOverlap start stop first last = true
          · refine .inr ⟨first, last, List.mem_cons_self, overlaps, ?_⟩
            rw [addConflict, if_pos overlaps] at isBefore
            have isMax := Option.some.inj isBefore
            cases seen with
            | none => exact Nat.le_trans (Nat.le_of_eq isMax) below
            | some seen => exact Nat.le_trans (Nat.le_max_right seen last |>.trans_eq isMax) below
          · rw [addConflict, if_neg overlaps] at isBefore
            exact .inl ⟨before, isBefore, below⟩
      · exact .inr ⟨low, high, List.mem_cons_of_mem _ mem, isConflict⟩

variable {ranges : List (Option (Nat × Nat))}

theorem conflictEnd_none {start stop : Nat} (isNone : conflictEnd start stop ranges = none)
    {low high : Nat} (mem : some (low, high) ∈ ranges) : high ≤ start ∨ stop ≤ low := by
  have apart := ((foldl_addConflict start stop ranges none).1 isNone).2 low high mem
  rw [sidecarRangesOverlap, decide_eq_false_iff_not] at apart
  omega

theorem conflictEnd_some {start stop next : Nat}
    (isNext : conflictEnd start stop ranges = some next) :
    ∃ low high, some (low, high) ∈ ranges ∧ start < high ∧ high ≤ next := by
  rcases (foldl_addConflict start stop ranges none).2 next isNext with ⟨_, isNone, _⟩ |
    ⟨low, high, mem, overlaps, below⟩
  · cases isNone
  · rw [sidecarRangesOverlap, decide_eq_true_eq] at overlaps
    exact ⟨low, high, mem, overlaps.1, below⟩

/-- A range that ends behind an offset. -/
def ahead (start : Nat) (range : Option (Nat × Nat)) : Bool :=
  match range with
  | none => false
  | some (_, stop) => start < stop

variable {bytes align : Nat}

namespace Holds

variable (holds : Holds platform rv contents)

include holds

theorem liveRanges : (rv.liveSidecars platform).mapM (fun resident =>
    rv.sidecarRange platform resident.storage) =
      .ok ((rv.liveSidecars platform).map rv.liveRange) :=
  Run.mapM_eq_map fun _ mem =>
    sidecarRange_settled holds.resting.space (holds.resting.settled mem)

/-- The search passes a block of a table in every round. -/
theorem planFrom (filled : 0 < bytes) (isPower : Layout.isPowerOfTwo align = true)
    (fuel start : Nat) (isAligned : (rv.slabPtr + start) % align = 0)
    (enough : ((rv.liveSidecars platform).map rv.liveRange).countP (ahead start) < fuel) :
    rv.planFrom platform bytes align fuel start = .ok none ∨
      ∃ lease, rv.planFrom platform bytes align fuel start = .ok (some lease) ∧
        Planned rv contents bytes align lease := by
  induction fuel generalizing start with
  | zero => cases enough
  | succ fuel hyp =>
    rw [Rendezvous.planFrom]
    unfold Layout.checkedAdd
    by_cases inDomain : start + bytes ≤ platform.usizeMax
    swap
    · rw [if_neg inDomain]
      exact .inl rfl
    rw [if_pos inDomain]
    dsimp only
    rw [holds.liveRanges, Run.bind_ok]
    cases isConflict : conflictEnd start (start + bytes)
        ((rv.liveSidecars platform).map rv.liveRange) with
    | some next =>
      obtain ⟨low, high, mem, isAhead, below⟩ := conflictEnd_some isConflict
      dsimp only
      rw [checkedAlignOffset_eq isPower, Run.bind_ok]
      by_cases fits : rv.slabPtr + next + (align - 1) ≤ platform.usizeMax
      swap
      · rw [if_neg fits]
        exact .inl rfl
      · rw [if_pos fits]
        have behind := le_firstAligned (rv.slabPtr + next) (isPowerOfTwo_pos isPower)
        refine hyp _ ?_ (Nat.lt_of_lt_of_le (countP_lt ?_ mem ?_ ?_) (Nat.le_of_lt_succ enough))
        · rw [Nat.add_sub_cancel' (by omega)]
          exact firstAligned_mod _ _
        · intro range _ isBehind
          unfold ahead at isBehind ⊢
          cases range with
          | none => exact isBehind
          | some range =>
            rw [decide_eq_true_eq] at isBehind ⊢
            omega
        · exact decide_eq_true isAhead
        · refine decide_eq_false ?_
          omega
    | none =>
      obtain ⟨floor, isFloor, above, inSlab, leases⟩ := holds.storageFloor
      have nonnull := holds.resting.space.nonnull
      rw [isFloor, Run.bind_ok]
      by_cases tooHigh : floor < start + bytes ∨ u32Max < start + bytes
      · rw [if_pos tooHigh]
        exact .inl rfl
      · have small := holds.small
        have frontier := holds.resting.frontier
        rw [if_neg tooHigh, fromRawParts_inSlab holds.resting.space (Nat.le_add_right _ _) filled,
          Run.bind_ok]
        refine .inr ⟨_, rfl, rfl, Nat.le_add_right _ _, isAligned, ?_, Nat.le_max_left _ _, ?_, ?_,
          fun other mem occupied => ?_, fun kind => ?_⟩
        · dsimp only
          omega
        · dsimp only
          omega
        · dsimp only
          omega
        · have isLow := (holds.fits other mem occupied).low
          have isAbove := leases other mem occupied
          dsimp only
          omega
        · dsimp only
          by_cases isEmpty : rv.storageOf kind = .empty
          · rw [isEmpty]
            exact .inl (Nat.zero_le _)
          · have live : isLive (residentOf platform rv kind) = true := isLive_residentOf.mpr isEmpty
            have inLive : residentOf platform rv kind ∈ rv.liveSidecars platform :=
              mem_liveSidecars.mpr ⟨kind, rfl⟩
            have low : rv.slabPtr ≤ (rv.storageOf kind).ptr := holds.resting.low _ inLive live
            have isRange : some ((rv.storageOf kind).ptr - rv.slabPtr,
                (rv.storageOf kind).ptr - rv.slabPtr + (rv.storageOf kind).bytes) ∈
                (rv.liveSidecars platform).map rv.liveRange :=
              List.mem_map.mpr ⟨_, inLive, if_pos live⟩
            have apart := conflictEnd_none isConflict isRange
            omega

/-- A plan of a block returns, with a free block or without one. -/
theorem planPersistentSidecarBytes (filled : 0 < bytes)
    (isPower : Layout.isPowerOfTwo align = true) :
    rv.planPersistentSidecarBytes platform bytes align = .ok none ∨
      ∃ lease, rv.planPersistentSidecarBytes platform bytes align = .ok (some lease) ∧
        Planned rv contents bytes align lease := by
  rw [Rendezvous.planPersistentSidecarBytes, if_neg (by omega), checkedAlignOffset_eq isPower,
    Run.bind_ok]
  have behind := le_firstAligned (rv.slabPtr + 0) (isPowerOfTwo_pos isPower)
  split
  · rename_i isNone
    exact .inl rfl
  · rename_i start isStart
    by_cases fits : rv.slabPtr + 0 + (align - 1) ≤ platform.usizeMax
    · rw [if_pos fits] at isStart
      cases isStart
      refine holds.planFrom filled isPower 4 _ ?_ ?_
      · rw [Nat.add_sub_cancel' (by omega)]
        exact firstAligned_mod _ _
      · refine Nat.lt_of_le_of_lt List.countP_le_length ?_
        rw [List.length_map]
        exact Nat.lt_succ_self 3
    · rw [if_neg fits] at isStart
      cases isStart

theorem allocatePersistentSidecarBytes (filled : 0 < bytes)
    (isPower : Layout.isPowerOfTwo align = true) :
    rv.allocatePersistentSidecarBytes platform bytes align = .ok none ∨
      ∃ lease, rv.allocatePersistentSidecarBytes platform bytes align =
          .ok (some (lease.storage, { rv with imageFrontier := lease.imageFrontier })) ∧
        Planned rv contents bytes align lease := by
  rw [Rendezvous.allocatePersistentSidecarBytes]
  rcases holds.planPersistentSidecarBytes filled isPower with isNone | ⟨lease, isSome, planned⟩
  · rw [isNone]
    exact .inl rfl
  · rw [isSome]
    exact .inr ⟨lease, rfl, planned⟩

end Holds

/-! ### Places of leases -/

/-- A free place for a lease: aligned, above the floor, inside the slab, and apart from the other
leases. -/
structure FreePlace (rv : Rendezvous) (contents : Contents Key Ref)
    (bytes align floor offset : Nat) : Prop where
  low : floor ≤ offset
  high : offset + bytes ≤ rv.slabLen
  aligned : (rv.slabPtr + offset) % align = 0
  apart : ∀ lease ∈ contents.leases, lease.1.isOccupied = true →
    offset + bytes ≤ leaseStart lease ∨ leaseEnd lease ≤ offset

namespace Holds

variable (holds : Holds platform rv contents)

include holds

/-- A plan of a lease returns, with a free place or without one. -/
theorem planEndpointLeaseOffset (isPower : Layout.isPowerOfTwo align = true) (floor : Nat) :
    (∃ scope, rv.planEndpointLeaseOffset platform bytes align floor = .ok (.error scope)) ∨
      ∃ offset, rv.planEndpointLeaseOffset platform bytes align floor = .ok (.ok offset) ∧
        FreePlace rv contents bytes align floor offset := by
  have space := holds.resting.space.fits
  have filled : ∀ lease ∈ contents.leases, lease.1.isOccupied = true → 0 < lease.1.len.toNat :=
    fun lease mem occupied => by
      have isFilled := (holds.fits lease mem occupied).filled
      unfold leaseStart leaseEnd at isFilled
      omega
  have fits : ∀ lease ∈ contents.leases, lease.1.isOccupied = true →
      lease.1.stop ≤ platform.usizeMax := fun lease mem occupied =>
    Nat.le_trans (holds.fits lease mem occupied).high (by omega)
  obtain ⟨answer, isOk, isHighest⟩ := planEndpointLeaseOffset_answers bytes holds.slots isPower
    space (List.forall_mem_map.mpr filled) (List.forall_mem_map.mpr fits)
    (List.pairwise_map.mpr holds.apart) floor
  cases answer with
  | error scope => exact .inl ⟨scope, isOk⟩
  | ok offset =>
    refine .inr ⟨offset, isOk, isHighest.1.low, isHighest.1.high, isHighest.1.aligned, ?_⟩
    exact List.forall_mem_map.mp isHighest.1.apart

end Holds

end Rendezvous

end Hibana
