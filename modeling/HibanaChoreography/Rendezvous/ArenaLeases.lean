/-
This file is about the table of leases: its slots change, it grows by a block for one
more slot, and it gives up the vacant slots at its end.

A growth ends with a compaction. It lowers the image frontier to the end of the best
order of the new blocks, which is the floor that the plan of a lease has computed
before anything moved.
-/

import Mathlib.Data.List.DropRight
import HibanaChoreography.Rendezvous.ArenaChanges

namespace Hibana

open Outcome ByteMemory Packing ResidentSidecar List

variable {index : Nat}

/-- A list whose values are related pairwise, with another value at a place. -/
theorem pairwise_set {Value : Type} {related : Value → Value → Prop} [Std.Symm related]
    {values : List Value} (pairwise : values.Pairwise related) {value : Value}
    (others : ∀ position (inside : position < values.length), position ≠ index →
      related value values[position]) : (values.set index value).Pairwise related := by
  rw [pairwise_iff_getElem] at pairwise ⊢
  intro first second firstInside secondInside before
  rw [length_set] at firstInside secondInside
  rw [getElem_set, getElem_set]
  by_cases isFirst : index = first
  · rw [if_pos isFirst, if_neg (by omega)]
    exact others second secondInside (by omega)
  · rw [if_neg isFirst]
    by_cases isSecond : index = second
    · rw [if_pos isSecond]
      exact Std.Symm.symm _ _ (others first firstInside (by omega))
    · rw [if_neg isSecond]
      exact pairwise first second firstInside secondInside before

namespace Rendezvous

variable {Key Ref : Type} {platform : Platform Key Ref} {rv next : Rendezvous}
  {contents : Contents Key Ref}

/-! ### Slots -/

namespace Holds

variable (holds : Holds platform rv contents)

include holds

theorem slotByIndex (index : Nat) : rv.endpointLeaseSlotByIndex platform index =
    .ok (contents.leases[index]?.map Prod.fst) := by
  rw [endpointLeaseSlotByIndex, holds.slots, Run.bind_ok, getElem?_map]
  rfl

/-- A slot is written. -/
theorem writeSlot (inside : index < contents.leases.length) (lease : EndpointLeaseSlot × Nat)
    (fits : lease.1.isOccupied = true → LeaseFits rv lease)
    (apart : ∀ position (isInside : position < contents.leases.length), position ≠ index →
      LeasesApart lease contents.leases[position]) :
    ∃ next, rv.writeEndpointLeaseSlot platform index lease.1 = .ok next ∧
      Holds platform next { contents with leases := contents.leases.set index lease } ∧
      SameRange rv next ∧ next.imageFrontier = rv.imageFrontier := by
  have isInside : index < (contents.leases.map Prod.fst).length := by rwa [length_map]
  let memory := write platform.leases.codec rv.lanes.memory
    (rv.endpointLeaseStorage.ptr + index * platform.leases.codec.size) lease.1
  have changes := holds.changesBytes .endpointLeases (holds.leases.write_agree isInside lease.1)
  have table : Table platform.leases memory rv.endpointLeaseStorage
      ((contents.leases.set index lease).map Prod.fst) := by
    rw [map_set]
    exact holds.leases.write index lease.1
  have isHeld := changes.holdsLeases holds rfl table
    (by rw [length_set]; exact holds.leaseCount)
    (fun other mem occupied => by
      rcases mem_or_eq_of_mem_set mem with isOld | rfl
      · exact changes.fits holds isOld occupied
      · obtain ⟨filled, low, high, aligned⟩ := fits occupied
        exact ⟨filled, low, high, aligned⟩)
    (pairwise_set holds.apart apart)
  refine ⟨_, ?_, isHeld, ⟨rfl, rfl, rfl, rfl, rfl, rfl⟩, rfl⟩
  rw [writeEndpointLeaseSlot, holds.slotCount, Run.bind_ok, if_neg (by omega)]
  rfl

variable {slot : EndpointLeaseSlot}

/-- The record of a lease changes and keeps its place. -/
theorem updateSlot {align : Nat} (isSlot : contents.leases[index]? = some (slot, align))
    (updated : EndpointLeaseSlot) (sameOffset : updated.offset = slot.offset)
    (sameLen : updated.len = slot.len)
    (stays : updated.isOccupied = true → slot.isOccupied = true) :
    ∃ next, rv.writeEndpointLeaseSlot platform index updated = .ok next ∧
      Holds platform next { contents with leases := contents.leases.set index (updated, align) } ∧
      SameRange rv next ∧ next.imageFrontier = rv.imageFrontier := by
  obtain ⟨inside, isLease⟩ := List.getElem?_eq_some_iff.mp isSlot
  have sameStart : leaseStart (updated, align) = leaseStart (slot, align) :=
    congrArg UInt32.toNat sameOffset
  have sameEnd : leaseEnd (updated, align) = leaseEnd (slot, align) := by
    rw [leaseEnd, leaseEnd, sameOffset, sameLen]
  refine holds.writeSlot inside (updated, align) (fun occupied => ?_)
    fun position isInside ne occupied otherOccupied => ?_
  · have isFit := holds.fits _ (mem_of_getElem? isSlot) (stays occupied)
    refine ⟨?_, ?_, ?_, ?_⟩
    · rw [sameStart, sameEnd]
      exact isFit.filled
    · rw [sameStart]
      exact isFit.low
    · rw [sameEnd]
      exact isFit.high
    · rw [sameStart]
      exact isFit.aligned
  · rw [sameStart, sameEnd]
    have apart := pairwise_iff_getElem.mp holds.apart
    rcases Nat.lt_or_gt_of_ne ne with before | behind
    · have isApart := apart position index isInside inside before
      rw [isLease] at isApart
      exact (isApart otherOccupied (stays occupied)).symm
    · have isApart := apart index position inside isInside behind
      rw [isLease] at isApart
      exact isApart (stays occupied) otherOccupied

/-- A slot becomes vacant. -/
theorem vacateSlot (inside : index < contents.leases.length) (lease : EndpointLeaseSlot × Nat)
    (vacant : lease.1.isOccupied = false) :
    ∃ next, rv.writeEndpointLeaseSlot platform index lease.1 = .ok next ∧
      Holds platform next { contents with leases := contents.leases.set index lease } ∧
      SameRange rv next ∧ next.imageFrontier = rv.imageFrontier :=
  holds.writeSlot inside lease
    (fun occupied => absurd occupied (ne_true_of_eq_false vacant))
    fun _ _ _ occupied => absurd occupied (ne_true_of_eq_false vacant)

/-- A reserved lease is published. -/
theorem publish {leaseSlot : UInt16} {generation : UInt32} {align : Nat}
    (isSlot : contents.leases[leaseSlot.toNat]? = some (slot, align))
    (isGeneration : slot.generation = generation) (isReserved : slot.state = .reserved) :
    ∃ next, rv.publishEndpointLease platform leaseSlot generation = .ok next ∧
      Holds platform next { contents with
        leases := contents.leases.set leaseSlot.toNat ({ slot with state := .published }, align) } ∧
      SameRange rv next := by
  obtain ⟨next, isOk, isHeld, sameRange, _⟩ := holds.updateSlot isSlot
    { slot with state := .published } rfl rfl fun _ => by
      rw [EndpointLeaseSlot.isOccupied, isReserved]
      rfl
  refine ⟨next, ?_, isHeld, sameRange⟩
  rw [publishEndpointLease, holds.slotByIndex, Run.bind_ok, isSlot]
  dsimp only [Option.map_some]
  rw [if_neg (not_or.mpr ⟨not_not_intro isGeneration, not_not_intro isReserved⟩), isOk]

end Holds

/-! ### Growth -/

theorem packedFrontier_congr (same : next.slabPtr = rv.slabPtr) (residents : List ResidentSidecar)
    (frontier : Nat) :
    next.packedFrontier platform residents frontier =
      rv.packedFrontier platform residents frontier := by
  induction residents generalizing frontier with
  | nil => rfl
  | cons resident rest hyp =>
    rw [packedFrontier, packedFrontier]
    simp only [hyp, same]

theorem bestOrder_congr (same : next.slabPtr = rv.slabPtr) (orders : List (List ResidentSidecar))
    (best : Option (List ResidentSidecar × Nat)) :
    next.bestOrder platform orders best = rv.bestOrder platform orders best := by
  induction orders generalizing best with
  | nil => rfl
  | cons order rest hyp =>
    rw [bestOrder, bestOrder, packedFrontier_congr same]
    simp only [hyp]

theorem clearSlots_eq (memory : Memory) (table current required : Nat) :
    clearSlots platform memory table current required = writeEach platform.leases.codec memory table
        ((List.replicate (required - current) EndpointLeaseSlot.empty).zipIdx current) := by
  have isMap : (List.replicate (required - current) EndpointLeaseSlot.empty).zipIdx current =
      (List.range' current (required - current)).map fun index => (.empty, index) := by
    refine ext_getElem (by simp) fun index _ _ => ?_
    simp
  rw [clearSlots, writeEach, isMap, foldl_map]

theorem clearSlots_agree (platform : Platform Key Ref) (memory : Memory) (table : Nat)
    {current required : Nat} (more : current ≤ required) :
    AgreeOutside table (table + required * platform.leases.codec.size) memory
      (clearSlots platform memory table current required) := by
  rw [clearSlots_eq]
  refine writeEach_agree _ _ _ fun entry mem => ?_
  obtain ⟨slot, index⟩ := entry
  have inside := (mem_zipIdx mem).2.1
  rw [length_replicate] at inside
  omega

/-- The records of a table that has grown: the old ones, and vacant ones behind them. -/
theorem array_grown {memory : Memory} {source table current required : Nat}
    (more : current ≤ required)
    (apart : source + current * platform.leases.codec.size ≤ table ∨
      table + required * platform.leases.codec.size ≤ source) :
    array platform.leases.codec
      (copy (clearSlots platform memory table current required) source table
        (current * platform.leases.codec.size)) table required =
      array platform.leases.codec memory source current ++
        List.replicate (required - current) .empty := by
  have fits : current + (List.replicate (required - current) EndpointLeaseSlot.empty).length ≤
      (array platform.leases.codec memory table required).length := by
    rw [length_replicate, length_array]
    omega
  have agree := clearSlots_agree platform memory table more
  have few : current ≤ (array platform.leases.codec memory table required).length := by
    rwa [length_array]
  rw [array_copy _ _ _ _ more, array_congr (agree.sameBytes apart), clearSlots_eq, array_writeEach,
    foldl_set_zipIdx fits, append_assoc,
    drop_left' (by rw [length_take, Nat.min_eq_left few]),
    length_replicate, Nat.add_sub_cancel' more, drop_eq_nil_of_le (by rw [length_array]),
    append_nil]

/-- Vacant slots at the end of a table. -/
def vacantSlots (count : Nat) : List (EndpointLeaseSlot × Nat) := List.replicate count (.empty, 1)

theorem not_occupied_of_vacantSlots {count : Nat} {lease : EndpointLeaseSlot × Nat}
    (mem : lease ∈ vacantSlots count) : ¬ lease.1.isOccupied = true := by
  rw [eq_of_mem_replicate mem]
  exact Bool.false_ne_true

/-- The table of leases grows into a planned block. The compaction behind it goes to the end of the
best order of the new blocks. -/
theorem Holds.commitCapacity (holds : Holds platform rv contents) {required : Nat}
    {lease : PersistentSidecarLease} (more : contents.leases.length < required)
    (few : required ≤ 65536)
    (planned : Planned rv contents (required * platform.leases.codec.size) platform.leases.align
      lease) :
    ∃ wanted stop next,
      rv.sidecarPackingOrder platform [⟨.endpointLeases, lease.storage, platform.leases.align⟩,
        ⟨.associations, rv.assocStorage, AssocTable.storageAlign⟩,
        ⟨.resolvers, rv.resolverStorage, platform.resolvers.align⟩] = .ok (some (wanted, stop)) ∧
      rv.commitEndpointLeaseCapacity platform (.replace required lease) = .ok next ∧
      Holds platform next { contents with
        leases := contents.leases ++ vacantSlots (required - contents.leases.length) } ∧
      next.imageFrontier = stop ∧ SameRange rv next := by
  let current := contents.leases.length
  let memory := copy (clearSlots platform rv.lanes.memory lease.storage.ptr current required)
    rv.endpointLeaseStorage.ptr lease.storage.ptr (current * platform.leases.codec.size)
  let grown := rv.withBlock .endpointLeases lease.storage { rv.lanes with memory }
    lease.imageFrontier
  have nonnull := holds.resting.space.nonnull
  have low := planned.low
  have isBytes := holds.leases.bytes
  have records := holds.leases.records
  rw [length_map] at isBytes records
  have apart := planned.apart .endpointLeases
  have room := Nat.mul_le_mul_right platform.leases.codec.size (Nat.le_of_lt more)
  have filled : platform.leases.align ≤ required * platform.leases.codec.size :=
    Nat.le_trans (Nat.le_of_dvd platform.leases.filled platform.leases.divides)
      (Nat.le_mul_of_pos_left _ (by omega))
  have agree : AgreeOutside lease.storage.ptr
      (lease.storage.ptr + required * platform.leases.codec.size) rv.lanes.memory memory :=
    (clearSlots_agree platform _ _ (Nat.le_of_lt more)).trans
      (copy_agree _ le_rfl (Nat.add_le_add_left room _))
  have changes : Changes platform rv grown contents .endpointLeases :=
    planned.changesTo filled agree fun _ => rfl
  have table : Table platform.leases memory lease.storage
      ((contents.leases ++ vacantSlots (required - current)).map Prod.fst) := by
    have isLength : (contents.leases ++ vacantSlots (required - current)).length = required := by
      rw [length_append, vacantSlots, length_replicate]
      omega
    refine ⟨iff_of_false (by omega) fun isNil => ?_, ?_, ?_⟩
    · have isZero := congrArg List.length isNil
      rw [length_map, isLength, length_nil] at isZero
      omega
    · rw [length_map, isLength]
      exact planned.size
    · rw [length_map, isLength, map_append, vacantSlots, map_replicate, ← records]
      refine array_grown (Nat.le_of_lt more) ?_
      rw [← isBytes]
      exact apart
  have isHeld := changes.holdsLeases holds rfl table
    (by rw [length_append, vacantSlots, length_replicate]; omega)
    (fun other mem occupied => (mem_append.mp mem).elim
      (fun isOld => changes.fits holds isOld occupied)
      fun isNew => absurd occupied (not_occupied_of_vacantSlots isNew))
    (pairwise_append.mpr ⟨holds.apart,
      pairwise_of_forall_mem_list fun _ isFirst _ _ occupied =>
        absurd occupied (not_occupied_of_vacantSlots isFirst),
      fun _ _ _ isNew _ occupied => absurd occupied (not_occupied_of_vacantSlots isNew)⟩)
  obtain ⟨wanted, stop, next, isBest, isOk, isNext, isFrontier, sameRange, _⟩ := isHeld.compact
  refine ⟨wanted, stop, next, ?_, ?_, isNext, isFrontier,
    (show SameRange rv grown from ⟨rfl, rfl, rfl, rfl, rfl, rfl⟩).trans sameRange⟩
  · rw [← isBest]
    exact (bestOrder_congr rfl _ _).symm
  · have isMemory : (if current ≠ 0 then memory else
        clearSlots platform rv.lanes.memory lease.storage.ptr current required) = memory := by
      by_cases isZero : current = 0
      · rw [if_neg (not_not_intro isZero)]
        show _ = copy _ _ _ (current * _)
        rw [isZero, Nat.zero_mul, copy_zero]
      · rw [if_pos isZero]
    rw [commitEndpointLeaseCapacity, holds.slotCount, Run.bind_ok, if_neg (by omega)]
    dsimp only [commitPersistentSidecarLease]
    rw [isMemory]
    by_cases live : rv.storageOf .endpointLeases = .empty
    · rw [show rv.endpointLeaseStorage.isEmpty = .ok (decide _) from
        holds.resting.isEmpty_storageOf .endpointLeases, Run.bind_ok, if_pos (decide_eq_true live)]
      exact isOk
    · rw [show rv.endpointLeaseStorage.isEmpty = .ok (decide _) from
        holds.resting.isEmpty_storageOf .endpointLeases, Run.bind_ok,
        if_neg fun isTrue => live (of_decide_eq_true isTrue)]
      refine (changes.retire_eq holds (fun _ => ?_) live).trans isOk
      exact planned.ptr_ne holds (Nat.mul_pos (by omega) platform.leases.filled) .endpointLeases

/-! ### Vacant slots at the end -/

/-- The slots up to the last occupied one. -/
def occupiedSlots (leases : List (EndpointLeaseSlot × Nat)) : List (EndpointLeaseSlot × Nat) :=
  leases.rdropWhile fun lease => !lease.1.isOccupied

theorem occupiedSlots_eq_take (leases : List (EndpointLeaseSlot × Nat)) :
    occupiedSlots leases = leases.take (occupiedSlots leases).length :=
  prefix_iff_eq_take.mp (List.rdropWhile_prefix _ _)

theorem length_occupiedSlots (leases : List (EndpointLeaseSlot × Nat)) :
    ((leases.map Prod.fst).reverse.dropWhile fun slot => !slot.isOccupied).length =
      (occupiedSlots leases).length := by
  rw [← map_reverse, dropWhile_map, length_map, occupiedSlots, List.rdropWhile,
    length_reverse]
  rfl

/-- What is left of a slab: its frontier is not higher, and its association table not larger. -/
structure Lowered (rv next : Rendezvous) : Prop where
  frontier : next.imageFrontier ≤ rv.imageFrontier
  assocSlots : next.lanes.assoc.assocSlots ≤ rv.lanes.assoc.assocSlots

theorem Lowered.trans {middle : Rendezvous} (first : Lowered rv middle)
    (second : Lowered middle next) : Lowered rv next :=
  ⟨second.frontier.trans first.frontier, second.assocSlots.trans first.assocSlots⟩

/-- A table without records needs no block. -/
theorem Table.ofEmpty {Value : Type} (layout : TableLayout Value) (memory : Memory) :
    Table layout memory .empty [] := ⟨iff_of_true rfl rfl, (Nat.zero_mul _).symm, rfl⟩

theorem Holds.shrinkCapacity (holds : Holds platform rv contents) :
    ∃ next, rv.shrinkEndpointLeaseCapacity platform = .ok next ∧
      Holds platform next { contents with leases := occupiedSlots contents.leases } ∧
      SameRange rv next ∧ Lowered rv next ∧
      ((occupiedSlots contents.leases).length ≠ contents.leases.length → Tight platform next) := by
  have isTaken := occupiedSlots_eq_take contents.leases
  have isPrefix : (occupiedSlots contents.leases).Sublist contents.leases :=
    (List.rdropWhile_prefix _ _).sublist
  have fewer := isPrefix.length_le
  have leaseCount := holds.leaseCount
  rw [shrinkEndpointLeaseCapacity, holds.slots, Run.bind_ok]
  rw [length_occupiedSlots, length_map]
  by_cases isAll : (occupiedSlots contents.leases).length = contents.leases.length
  · rw [isAll, take_length] at isTaken
    rw [if_pos isAll, isTaken]
    exact ⟨rv, rfl, holds, .refl rv, ⟨le_rfl, le_rfl⟩, absurd rfl⟩
  rw [if_neg isAll]
  have live : rv.storageOf .endpointLeases ≠ .empty := fun isEmpty => by
    have isNil := map_eq_nil_iff.mp (holds.leases.null.mp (congrArg Sidecar.ptr isEmpty))
    rw [isNil] at isAll
    exact isAll rfl
  have lowered : ∀ {next : Rendezvous}, SameRange rv next → Tight platform next →
      Holds platform next { contents with leases := occupiedSlots contents.leases } →
      Lowered rv next := fun sameRange tight isNext =>
    ⟨tight.frontier_le isNext holds sameRange.slabPtr fewer (Nat.le_of_eq sameRange.assocSlots)
      le_rfl, Nat.le_of_eq sameRange.assocSlots⟩
  -- the block that is left over, and what the slab holds with it
  have kept : ∀ storage, (storage ≠ .empty → rv.storageOf .endpointLeases ≠ .empty ∧
        storage.ptr = (rv.storageOf .endpointLeases).ptr ∧
        alignOf platform .endpointLeases ≤ storage.bytes ∧
        storage.bytes ≤ (rv.storageOf .endpointLeases).bytes) →
      Table platform.leases rv.lanes.memory storage ((occupiedSlots contents.leases).map Prod.fst) →
      Changes platform rv { rv with endpointLeaseStorage := storage } contents .endpointLeases ∧
      Holds platform { rv with endpointLeaseStorage := storage }
        { contents with leases := occupiedSlots contents.leases } := by
    intro storage within table
    have changes : Changes platform rv { rv with endpointLeaseStorage := storage } contents
      .endpointLeases := holds.changesWithin within (fun _ _ => rfl) fun _ => rfl
    exact ⟨changes, changes.holdsLeases holds rfl table (Nat.le_trans fewer leaseCount)
      (fun lease mem => changes.fits holds (isPrefix.mem mem)) (holds.apart.sublist isPrefix)⟩
  by_cases noneKept : (occupiedSlots contents.leases).length = 0
  · rw [if_pos noneKept]
    rw [length_eq_zero_iff] at noneKept
    obtain ⟨changes, isHeld⟩ := kept .empty (fun live => absurd rfl live) (by
      rw [noneKept]
      exact Table.ofEmpty _ _)
    obtain ⟨next, isOk, isNext, nextRange, tight⟩ :=
      changes.retire holds (fun live => absurd rfl live) isHeld
    have sameRange : SameRange rv next := ⟨nextRange.slabPtr, nextRange.slabLen,
      nextRange.laneBase, nextRange.laneEnd, nextRange.laneSlots, nextRange.assocSlots⟩
    exact ⟨next, isOk, isNext, sameRange, lowered sameRange (tight live) isNext,
      fun _ => tight live⟩
  · have pos := Nat.pos_of_ne_zero noneKept
    have seated := holds.seated live
    have low : rv.slabPtr ≤ rv.endpointLeaseStorage.ptr := seated.low
    have high := seated.high
    have frontier := holds.resting.frontier
    have inSpace := holds.resting.space.fits
    have isBytes : (rv.storageOf .endpointLeases).bytes = _ := holds.leases.bytes
    rw [length_map] at isBytes
    have room := Nat.mul_le_mul_right platform.leases.codec.size fewer
    have filled : platform.leases.codec.size ≤
        (occupiedSlots contents.leases).length * platform.leases.codec.size :=
      Nat.le_mul_of_pos_left _ pos
    have sizePositive := platform.leases.filled
    obtain ⟨_, isHeld⟩ := kept ⟨rv.endpointLeaseStorage.ptr,
        (occupiedSlots contents.leases).length * platform.leases.codec.size⟩
      (fun _ => ⟨live, rfl,
        Nat.le_trans (Nat.le_of_dvd sizePositive platform.leases.divides) filled,
        by dsimp only; omega⟩) (by
        have isTable := holds.leases.take pos (by rwa [length_map])
        rwa [← map_take, ← isTaken] at isTable)
    obtain ⟨_, _, next, _, isOk, isNext, _, nextRange, tight⟩ := isHeld.compact
    have sameRange : SameRange rv next := ⟨nextRange.slabPtr, nextRange.slabLen,
      nextRange.laneBase, nextRange.laneEnd, nextRange.laneSlots, nextRange.assocSlots⟩
    refine ⟨next, ?_, isNext, sameRange, lowered sameRange tight isNext, fun _ => tight⟩
    rw [if_neg noneKept, Layout.mul_ok (by omega), Run.bind_ok,
      fromRawParts_inSlab holds.resting.space low (by omega), Run.bind_ok]
    exact isOk

end Rendezvous

end Hibana
