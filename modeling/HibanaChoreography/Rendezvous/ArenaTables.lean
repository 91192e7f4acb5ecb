/-
This file is about the association table and the table of resolvers in the slab: requests
of sessions write into the block of the lanes, both tables grow by a planned block, and a
release shrinks the association table in its block.
-/

import HibanaChoreography.Rendezvous.ArenaLeases
import HibanaChoreography.Rendezvous.AssociationFrame

namespace Hibana

open Outcome ByteMemory Packing ResidentSidecar List

/-- The present resolvers in front, and room for more behind them. -/
def roomForResolvers {Entry : Type} (entries : List (Option Entry)) (additional : Nat) :
    List (Option Entry) :=
  entries.filter Option.isSome ++ List.replicate additional none

namespace Rendezvous

variable {Key Ref : Type} {platform : Platform Key Ref} {rv next : Rendezvous}
  {contents : Contents Key Ref}

/-! ### Requests of sessions -/

/-- Between two operations the range of lanes is that of the table. -/
def Ranged (rv : Rendezvous) : Prop :=
  rv.lanes.laneEnd = rv.lanes.laneBase + rv.lanes.assoc.laneSlots ∧
    rv.lanes.assoc.laneSlots ≤ laneDomainSize

theorem Ranged.tableRange (ranged : Ranged rv) : rv.lanes.tableRange = rv.lanes := by
  rw [LaneStore.tableRange, ← ranged.1]

theorem Ranged.congr (ranged : Ranged rv) (sameRange : SameRange rv next) : Ranged next := by
  refine ⟨?_, ?_⟩
  · rw [sameRange.laneEnd, sameRange.laneBase, sameRange.laneSlots]
    exact ranged.1
  · rw [sameRange.laneSlots]
    exact ranged.2

/-- A request of a session writes into the block of the lanes. -/
theorem Holds.changeEntries (holds : Holds platform rv contents) (ranged : Ranged rv)
    {lanes : LaneStore} (changed : rv.lanes.ChangesEntries lanes) {attachments : Attachments}
    (represents : lanes.Represents platform.usizeMax attachments) :
    Holds platform { rv with lanes } { contents with attachments } ∧
      SameRange rv { rv with lanes } := by
  obtain ⟨memory, rfl, writes⟩ := changed
  have isRange : ({ rv.lanes with memory } : LaneStore).tableRange = { rv.lanes with memory } := by
    rw [LaneStore.tableRange, ← ranged.1]
  have agree : AgreeOutside (rv.storageOf .associations).ptr
      ((rv.storageOf .associations).ptr + (rv.storageOf .associations).bytes) rv.lanes.memory
      memory := by
    have isBlock : rv.storageOf .associations = rv.lanes.assoc.block := holds.assoc
    rw [isBlock, AssocTable.block]
    cases isBound : rv.lanes.assoc.isBound with
    | true => exact writes.agree (holds.lanes.block isBound).stored
    | false =>
      have isEmpty : rv.lanes.assoc = .initEmpty := holds.lanes.unbound isBound
      rw [isEmpty] at writes
      exact fun place _ => writes place (by simp [AssocTable.Outside, AssocTable.initEmpty])
  refine ⟨(holds.changesBytes .associations agree).holdsLanes holds rfl ?_ holds.assoc,
    ⟨rfl, rfl, rfl, rfl, rfl, rfl⟩⟩
  rw [isRange]
  exact represents

/-! ### More lanes -/

variable {lease : PersistentSidecarLease}

/-- The table of the lanes takes a planned block. -/
theorem Holds.installLanes (holds : Holds platform rv contents) (ranged : Ranged rv)
    {laneSlots assocSlots : Nat} (pos : 0 < assocSlots) (small : assocSlots ≤ 65535)
    (inDomain : laneSlots ≤ laneDomainSize) (moreLanes : rv.lanes.assoc.laneSlots ≤ laneSlots)
    (moreSlots : rv.lanes.assoc.assocSlots ≤ assocSlots)
    (planned : Planned rv contents (AssocTable.blockBytes assocSlots) AssocTable.storageAlign
      lease) :
    ∃ lanes, rv.lanes.installLaneStorage platform.usizeMax lease.storage.ptr laneSlots assocSlots =
        .ok lanes ∧
      Changes platform rv { rv with
        lanes, assocStorage := lease.storage, imageFrontier := lease.imageFrontier } contents
        .associations ∧
      Holds platform { rv with
        lanes, assocStorage := lease.storage, imageFrontier := lease.imageFrontier } contents ∧
      Ranged { rv with
        lanes, assocStorage := lease.storage, imageFrontier := lease.imageFrontier } := by
  have represents : rv.lanes.Represents platform.usizeMax contents.attachments :=
    ranged.tableRange ▸ holds.lanes
  have nonnull := holds.resting.space.nonnull
  have inSpace := holds.resting.space.fits
  have low := planned.low
  have high := planned.high
  have inSlab := planned.inSlab
  have grants : rv.lanes.Grants platform.usizeMax lease.storage.ptr laneSlots assocSlots := by
    refine ⟨by omega, planned.aligned, pos, small, ?_, by omega, moreLanes, moreSlots,
      fun isBound => ?_⟩
    · unfold laneDomainSize at inDomain
      omega
    · have apart := planned.apart .associations
      have isBlock : rv.storageOf .associations = rv.lanes.assoc.block := holds.assoc
      rw [isBlock, AssocTable.block, if_pos isBound] at apart
      exact apart.symm
  obtain ⟨memory, isOk, isHeld, agree⟩ := represents.install grants
  have changes : Changes platform rv { rv with
      lanes := ⟨memory, .ofBlock lease.storage.ptr rv.lanes.laneBase laneSlots assocSlots,
        rv.lanes.laneBase, rv.lanes.laneBase + laneSlots⟩
      assocStorage := lease.storage
      imageFrontier := lease.imageFrontier } contents .associations :=
    planned.changesTo (AssocTable.storageAlign_le pos) agree fun other => absurd rfl other
  refine ⟨_, isOk, changes, changes.holdsLanes holds rfl isHeld ?_, rfl, inDomain⟩
  rw [AssocTable.block_ofBlock grants.nonnull]
  exact congrArg (Sidecar.mk _) planned.size

/-- Storage for lanes is there, or it is taken, or nothing changes. -/
theorem Holds.ensureLanes (holds : Holds platform rv contents) (ranged : Ranged rv)
    (requiredLaneSlots requiredAssocSlots : Nat) :
    (∃ scope, rv.ensureLaneStorage platform requiredLaneSlots requiredAssocSlots =
        .ok (.error scope, rv)) ∨
      ∃ next, rv.ensureLaneStorage platform requiredLaneSlots requiredAssocSlots =
          .ok (.ok (), next) ∧ Holds platform next contents ∧ Ranged next ∧ SameSlab rv next := by
  have laneSlots := ranged.2
  have isCount : rv.lanes.laneSlotCount = .ok rv.lanes.assoc.laneSlots := by
    rw [LaneStore.laneSlotCount, ranged.1, if_neg (by omega), Nat.add_sub_cancel_left]
  rw [ensureLaneStorage, isCount, Run.bind_ok]
  by_cases noLanes : requiredLaneSlots = 0 ∨ laneDomainSize < requiredLaneSlots
  · rw [if_pos noLanes]
    exact .inl ⟨_, rfl⟩
  by_cases noSlots : requiredAssocSlots = 0 ∨ 65535 < requiredAssocSlots
  · rw [if_neg noLanes, if_pos noSlots]
    exact .inl ⟨_, rfl⟩
  rw [if_neg noLanes, if_neg noSlots]
  dsimp only
  split
  · exact .inl ⟨_, rfl⟩
  split
  · exact .inr ⟨rv, rfl, holds, ranged, rfl, rfl⟩
  have fewSlots : rv.lanes.assoc.assocSlots ≤ 65535 := by
    cases isBound : rv.lanes.assoc.isBound with
    | true => exact (holds.lanes.block isBound).small
    | false =>
      rw [show rv.lanes.assoc = .initEmpty from holds.lanes.unbound isBound]
      exact Nat.zero_le _
  have wide := platform.wide
  have pos : 0 < max rv.lanes.assoc.assocSlots requiredAssocSlots := by omega
  have isBytes : AssocTable.storageBytes platform.usizeMax
      (max rv.lanes.assoc.assocSlots requiredAssocSlots) = .ok
        (AssocTable.blockBytes (max rv.lanes.assoc.assocSlots requiredAssocSlots)) := by
    refine AssocTable.storageBytes_eq pos ?_
    unfold AssocTable.blockBytes
    unfold u32Max at wide
    omega
  have filled : 0 < AssocTable.blockBytes (max rv.lanes.assoc.assocSlots requiredAssocSlots) :=
    Nat.lt_of_lt_of_le (by decide) (AssocTable.storageAlign_le pos)
  have isPower : Layout.isPowerOfTwo AssocTable.storageAlign = true := by decide
  have laneDomain : max rv.lanes.assoc.laneSlots requiredLaneSlots ≤ laneDomainSize := by
    omega
  rw [isBytes, Run.bind_ok]
  rcases holds.allocatePersistentSidecarBytes filled isPower with isNone | ⟨lease, isSome, planned⟩
  · rw [isNone]
    exact .inl ⟨_, rfl⟩
  · obtain ⟨lanes, isOk, changes, isHeld, isRanged⟩ := holds.installLanes ranged pos
      (by omega) laneDomain (Nat.le_max_left _ _) (Nat.le_max_left _ _) planned
    rw [isSome, Run.bind_ok]
    dsimp only
    rw [isOk, Run.bind_ok]
    cases rv.lanes.assoc.isBound with
    | false => exact .inr ⟨_, rfl, isHeld, isRanged, changes.sameSlab⟩
    | true =>
      obtain ⟨next, isRetired, isNext, sameRange, _⟩ :=
        changes.retire holds (fun _ => planned.ptr_ne holds filled .associations) isHeld
      rw [if_pos rfl]
      exact .inr ⟨next, (congrArg (· >>= _) isRetired).trans rfl, isNext, isRanged.congr sameRange,
        changes.sameSlab.trans sameRange.sameSlab⟩

/-! ### Resolvers -/

theorem Holds.resolverEntries (holds : Holds platform rv contents) :
    rv.resolverEntries platform = .ok contents.resolvers := by
  rw [Rendezvous.resolverEntries, holds.resolvers.recordCount, Run.bind_ok, holds.resolvers.records]
  rfl

variable {entries : List (Option (Key × Ref))}

theorem writeResolvers_agree (memory : Memory) (table : Nat) {required : Nat}
    (fits : entries.length ≤ required) :
    AgreeOutside table (table + required * platform.resolvers.codec.size) memory
      (writeResolvers platform memory table entries) := by
  refine writeEach_agree _ _ _ fun entry mem => ?_
  obtain ⟨resolver, index⟩ := entry
  have inside := (mem_zipIdx mem).2.1
  omega

/-- Entries that are written to the front of a table. -/
theorem array_writeResolvers (memory : Memory) (table : Nat) {required : Nat}
    (fits : entries.length ≤ required) :
    array platform.resolvers.codec (writeResolvers platform memory table entries) table required =
      entries ++ (array platform.resolvers.codec memory table required).drop entries.length := by
  refine (array_writeEach _ _ _ _ _).trans ((foldl_set_zipIdx ?_).trans ?_)
  · rw [length_array]
    omega
  · rw [take_zero, nil_append, Nat.zero_add]

variable {additional : Nat}

/-- The table of resolvers takes a planned block. -/
theorem Holds.replaceResolvers (holds : Holds platform rv contents) (pos : 0 < additional)
    (planned : Planned rv contents
      ((contents.resolvers.countP Option.isSome + additional) * platform.resolvers.codec.size)
      platform.resolvers.align lease) :
    ∃ next, replaceResolverStorage platform { rv with imageFrontier := lease.imageFrontier }
        lease.storage (contents.resolvers.countP Option.isSome + additional) = .ok next ∧
      Changes platform rv next contents .resolvers ∧
      next.resolverStorage = lease.storage ∧
      Holds platform next
        { contents with resolvers := roomForResolvers contents.resolvers additional } ∧
      SameRange rv next := by
  let present := contents.resolvers.filter Option.isSome
  have isPresent : contents.resolvers.countP Option.isSome = present.length :=
    countP_eq_length_filter
  generalize isRequired : contents.resolvers.countP Option.isSome + additional = required at *
  have enough : present.length ≤ required := by omega
  let cleared := writeResolvers platform rv.lanes.memory lease.storage.ptr
    (List.replicate required none)
  let memory := writeResolvers platform cleared lease.storage.ptr present
  have nonnull := holds.resting.space.nonnull
  have low := planned.low
  have records : array platform.resolvers.codec memory lease.storage.ptr required =
      roomForResolvers contents.resolvers additional := by
    rw [array_writeResolvers _ _ enough, array_writeResolvers _ _ (by rw [length_replicate]),
      drop_append_of_le_length (by rwa [length_replicate]), drop_replicate,
      length_replicate, drop_eq_nil_of_le (by rw [length_array]), append_nil,
      show required - present.length = additional by omega]
    rfl
  have isLength : (roomForResolvers contents.resolvers additional).length = required := by
    rw [← records, length_array]
  have agree : AgreeOutside lease.storage.ptr
      (lease.storage.ptr + required * platform.resolvers.codec.size) rv.lanes.memory memory :=
    (writeResolvers_agree _ _ (by rw [length_replicate])).trans
      (writeResolvers_agree _ _ enough)
  have filled : platform.resolvers.align ≤ required * platform.resolvers.codec.size :=
    Nat.le_trans (Nat.le_of_dvd platform.resolvers.filled platform.resolvers.divides)
      (Nat.le_mul_of_pos_left _ (by omega))
  have changes : Changes platform rv (rv.withBlock .resolvers lease.storage
      { rv.lanes with memory } lease.imageFrontier) contents .resolvers :=
    planned.changesTo filled agree fun _ => rfl
  have table : Table platform.resolvers memory lease.storage
      (roomForResolvers contents.resolvers additional) := by
    refine ⟨iff_of_false (by omega) fun isNil => ?_, ?_, by rw [isLength, records]⟩
    · rw [isNil, length_nil] at isLength
      omega
    · rw [isLength]
      exact planned.size
  refine ⟨_, ?_, changes, rfl, changes.holdsResolvers holds rfl table,
    ⟨rfl, rfl, rfl, rfl, rfl, rfl⟩⟩
  rw [replaceResolverStorage, table.recordCount, Run.bind_ok, isLength, if_neg (not_not_intro rfl)]
  refine (congrArg (· >>= _) holds.resolverEntries).trans ?_
  rw [Run.bind_ok]
  exact if_neg (Nat.not_lt.mpr enough)

/-- The table of resolvers after a growth. -/
def grownResolvers (resolvers : List (Option (Key × Ref))) (additional : Nat) :
    List (Option (Key × Ref)) :=
  if additional = 0 ∨ resolvers.countP Option.isSome + additional ≤ resolvers.length then resolvers
  else roomForResolvers resolvers additional

/-- Room for resolvers is there, or it is taken, or nothing changes. -/
theorem Holds.ensureResolvers (holds : Holds platform rv contents)
    (noOverflow : (contents.resolvers.countP Option.isSome + additional) *
      platform.resolvers.codec.size ≤ platform.usizeMax) :
    (∃ scope, rv.ensureDynamicResolverCapacity platform additional = .ok (.error scope, rv)) ∨
      ∃ next, rv.ensureDynamicResolverCapacity platform additional = .ok (.ok (), next) ∧
        Holds platform next
          { contents with resolvers := grownResolvers contents.resolvers additional } ∧
        SameRange rv next := by
  rw [ensureDynamicResolverCapacity]
  by_cases isZero : additional = 0
  · rw [if_pos isZero, grownResolvers, if_pos (.inl isZero)]
    exact .inr ⟨rv, rfl, holds, .refl rv⟩
  rw [if_neg isZero, holds.resolverEntries, Run.bind_ok, Layout.checkedAdd]
  split
  · exact .inl ⟨_, rfl⟩
  rename_i required isRequired
  split at isRequired
  swap
  · cases isRequired
  cases isRequired
  by_cases enough : contents.resolvers.countP Option.isSome + additional ≤ contents.resolvers.length
  · rw [if_pos enough, grownResolvers, if_pos (.inr enough)]
    exact .inr ⟨rv, rfl, holds, .refl rv⟩
  have filled : 0 < (contents.resolvers.countP Option.isSome + additional) *
      platform.resolvers.codec.size :=
    Nat.mul_pos (by omega) platform.resolvers.filled
  rw [if_neg enough, Layout.mul_ok noOverflow, Run.bind_ok, grownResolvers,
    if_neg (not_or.mpr ⟨isZero, enough⟩)]
  rcases holds.allocatePersistentSidecarBytes filled platform.resolvers.isPower with isNone |
    ⟨lease, isSome, planned⟩
  · rw [isNone]
    exact .inl ⟨_, rfl⟩
  · obtain ⟨replaced, isReplaced, changes, isStorage, isHeld, sameRange⟩ :=
      holds.replaceResolvers (Nat.pos_of_ne_zero isZero) planned
    obtain ⟨next, isRetired, isNext, isRange, _⟩ := changes.retire holds (fun _ => by
        rw [show replaced.storageOf .resolvers = lease.storage from isStorage]
        exact planned.ptr_ne holds filled .resolvers) isHeld
    rw [isSome, Run.bind_ok]
    dsimp only
    rw [isReplaced, Run.bind_ok]
    exact .inr ⟨next, (congrArg (· >>= _) isRetired).trans rfl, isNext, sameRange.trans isRange⟩

/-- The table of resolvers with a resolver set. -/
def setResolver [DecidableEq Key] (resolvers : List (Option (Key × Ref))) (registration : Key)
    (resolver : Ref) : List (Option (Key × Ref)) :=
  match resolvers.findIdx? fun entry => entry.map Prod.fst = some registration with
  | some index => resolvers.set index (some (registration, resolver))
  | none =>
    match resolvers.findIdx? fun entry => !entry.isSome with
    | some index => resolvers.set index (some (registration, resolver))
    | none => resolvers

theorem Holds.setResolverAt (holds : Holds platform rv contents) {index : Nat}
    (inside : index < contents.resolvers.length) (entry : Option (Key × Ref)) :
    Holds platform { rv with lanes := { rv.lanes with
        memory := write platform.resolvers.codec rv.lanes.memory
          (rv.resolverStorage.ptr + index * platform.resolvers.codec.size) entry } }
        { contents with resolvers := contents.resolvers.set index entry } :=
  (holds.changesBytes .resolvers (holds.resolvers.write_agree inside entry)).holdsResolvers holds
    rfl (holds.resolvers.write index entry)

/-- A resolver is set, or there is no room and nothing changes. -/
theorem Holds.insertResolver [DecidableEq Key] (holds : Holds platform rv contents)
    (registration : Key) (resolver : Ref) :
    ∃ result next, rv.insertDynamicResolver platform registration resolver = .ok (result, next) ∧
      Holds platform next
        { contents with resolvers := setResolver contents.resolvers registration resolver } ∧
      SameRange rv next := by
  rw [insertDynamicResolver, holds.resolverEntries, Run.bind_ok]
  cases isOld : contents.resolvers.findIdx? fun entry => entry.map Prod.fst = some registration with
  | some index =>
    obtain ⟨inside, _⟩ := findIdx?_eq_some_iff_getElem.mp isOld
    rw [setResolver, isOld]
    exact ⟨_, _, rfl, holds.setResolverAt inside _, ⟨rfl, rfl, rfl, rfl, rfl, rfl⟩⟩
  | none =>
    rw [setResolver, isOld]
    cases isVacant : contents.resolvers.findIdx? fun entry => !entry.isSome with
    | some index =>
      obtain ⟨inside, _⟩ := findIdx?_eq_some_iff_getElem.mp isVacant
      exact ⟨_, _, rfl, holds.setResolverAt inside _, ⟨rfl, rfl, rfl, rfl, rfl, rfl⟩⟩
    | none => exact ⟨_, rv, rfl, holds, .refl rv⟩

end Rendezvous

end Hibana
