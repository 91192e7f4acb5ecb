/-
This file is about a change of one table of a slab: its owner writes into its block, takes
another block, or gives its block up.

The other two tables keep their blocks and their bytes. The image frontier may rise up
to the leases; a block that was given up is left to the next compaction.
-/

import HibanaChoreography.Rendezvous.ArenaPlans

namespace Hibana

open Outcome ByteMemory Packing ResidentSidecar

/-! ### Tables -/

namespace Table

variable {Value : Type} {layout : TableLayout Value} {memory after : Memory} {storage : Sidecar}
  {values : List Value}

theorem same (table : Table layout memory storage values)
    (isSame : SameBytes memory storage.ptr after storage.ptr storage.bytes) :
    Table layout after storage values :=
  table.moved ⟨Iff.rfl, rfl, isSame⟩

/-- A record of the table is set. -/
theorem write (table : Table layout memory storage values) (index : Nat) (value : Value) :
    Table layout
      (ByteMemory.write layout.codec memory (storage.ptr + index * layout.codec.size) value) storage
      (values.set index value) where
  null := by rw [table.null, List.set_eq_nil_iff]
  bytes := by rw [List.length_set, table.bytes]
  records := by rw [List.length_set, array_write_self, table.records]

theorem write_agree (table : Table layout memory storage values) {index : Nat}
    (inside : index < values.length) (value : Value) :
    AgreeOutside storage.ptr (storage.ptr + storage.bytes) memory
      (ByteMemory.write layout.codec memory (storage.ptr + index * layout.codec.size) value) := by
  have room := Nat.mul_le_mul_right layout.codec.size inside
  rw [Nat.succ_mul, ← table.bytes] at room
  exact ByteMemory.write_agree _ _ _ (by omega) (by omega)

/-- The table without its last records. -/
theorem take (table : Table layout memory storage values) {few : Nat} (pos : 0 < few)
    (fewer : few ≤ values.length) :
    Table layout memory ⟨storage.ptr, few * layout.codec.size⟩ (values.take few) where
  null := by
    rw [table.null, List.take_eq_nil_iff]
    exact ⟨.inr, fun isNil => isNil.resolve_left (by omega)⟩
  bytes := by rw [List.length_take, Nat.min_eq_left fewer]
  records := by
    rw [List.length_take, Nat.min_eq_left fewer, array_take _ _ _ fewer, table.records]

end Table

namespace Rendezvous

variable {Key Ref : Type} {platform : Platform Key Ref} {rv next : Rendezvous}
  {contents : Contents Key Ref} {owner : ResidentSidecarKind}

/-! ### One owner -/

/-- The block of an owner behind a change lies below the image frontier, apart from the blocks of
the others. -/
structure Seated (platform : Platform Key Ref) (rv next : Rendezvous)
    (owner : ResidentSidecarKind) : Prop where
  low : rv.slabPtr ≤ (next.storageOf owner).ptr
  high : (next.storageOf owner).ptr + (next.storageOf owner).bytes ≤
    rv.slabPtr + next.imageFrontier
  aligned : (next.storageOf owner).ptr % alignOf platform owner = 0
  filled : alignOf platform owner ≤ (next.storageOf owner).bytes
  apart : ∀ kind, kind ≠ owner →
    (rv.storageOf kind).ptr + (rv.storageOf kind).bytes ≤ (next.storageOf owner).ptr ∨
      (next.storageOf owner).ptr + (next.storageOf owner).bytes ≤ (rv.storageOf kind).ptr

/-- A change of one owner's table. -/
structure Changes (platform : Platform Key Ref) (rv next : Rendezvous) (contents : Contents Key Ref)
    (owner : ResidentSidecarKind) : Prop where
  slabPtr : next.slabPtr = rv.slabPtr
  slabLen : next.slabLen = rv.slabLen
  generation : next.endpointLeaseGeneration = rv.endpointLeaseGeneration
  others : ∀ kind, kind ≠ owner → next.storageOf kind = rv.storageOf kind
  bytes : ∀ kind, kind ≠ owner → SameBytes rv.lanes.memory (rv.storageOf kind).ptr
    next.lanes.memory (rv.storageOf kind).ptr (rv.storageOf kind).bytes
  lanes : owner ≠ .associations → next.lanes = { rv.lanes with memory := next.lanes.memory }
  raises : rv.imageFrontier ≤ next.imageFrontier
  inSlab : next.imageFrontier ≤ rv.slabLen
  small : next.imageFrontier ≤ u32Max
  below : ∀ lease ∈ contents.leases, lease.1.isOccupied = true →
    next.imageFrontier ≤ leaseStart lease
  block : next.storageOf owner ≠ .empty → Seated platform rv next owner

theorem Holds.storageOf_apart (holds : Holds platform rv contents)
    {first second : ResidentSidecarKind} (ne : first ≠ second) :
    (rv.storageOf first).ptr + (rv.storageOf first).bytes ≤ (rv.storageOf second).ptr ∨
      (rv.storageOf second).ptr + (rv.storageOf second).bytes ≤ (rv.storageOf first).ptr := by
  have apart := holds.resting.apart
  simp only [liveSidecars, List.pairwise_cons, List.forall_mem_cons, List.not_mem_nil,
    IsEmpty.forall_iff, implies_true, and_true, List.Pairwise.nil] at apart
  obtain ⟨⟨leasesAssoc, leasesResolvers⟩, assocResolvers⟩ := apart
  cases first <;> cases second
  · exact absurd rfl ne
  · exact leasesAssoc
  · exact leasesResolvers
  · exact leasesAssoc.symm
  · exact absurd rfl ne
  · exact assocResolvers
  · exact leasesResolvers.symm
  · exact assocResolvers.symm
  · exact absurd rfl ne

/-- The present block of an owner is seated. -/
theorem Holds.seated (holds : Holds platform rv contents) (live : rv.storageOf owner ≠ .empty) :
    Seated platform rv rv owner := by
  have isLive : isLive (residentOf platform rv owner) = true := isLive_residentOf.mpr live
  have mem : residentOf platform rv owner ∈ rv.liveSidecars platform :=
    mem_liveSidecars.mpr ⟨owner, rfl⟩
  exact ⟨holds.resting.low _ mem isLive, holds.resting.high _ mem isLive,
    holds.resting.aligned _ mem isLive, (holds.resting.alignable _ mem isLive).small,
    fun kind ne => holds.storageOf_apart ne⟩

namespace Changes

variable (changes : Changes platform rv next contents owner)

include changes

section

variable (holds : Holds platform rv contents)

include holds

theorem resting : Resting platform next := by
  have raises := changes.raises
  have seated : ∀ kind, next.storageOf kind ≠ .empty → rv.slabPtr ≤ (next.storageOf kind).ptr ∧
      (next.storageOf kind).ptr + (next.storageOf kind).bytes ≤ rv.slabPtr + next.imageFrontier ∧
      (next.storageOf kind).ptr % alignOf platform kind = 0 ∧
      alignOf platform kind ≤ (next.storageOf kind).bytes := by
    intro kind live
    by_cases isOwner : kind = owner
    · subst isOwner
      have isSeated := changes.block live
      exact ⟨isSeated.low, isSeated.high, isSeated.aligned, isSeated.filled⟩
    · rw [changes.others kind isOwner] at live ⊢
      have isSeated := holds.seated live
      have high := isSeated.high
      exact ⟨isSeated.low, by omega, isSeated.aligned, isSeated.filled⟩
  refine ⟨⟨?_, ?_⟩, ?_, fun resident mem live => ?_, fun resident mem live => ?_,
    fun resident mem live => ?_, fun resident mem live => ?_,
    pairwise_liveSidecars fun first second ne => ?_⟩
  · exact changes.slabPtr ▸ holds.resting.space.nonnull
  · rw [changes.slabPtr, changes.slabLen]
    exact holds.resting.space.fits
  · rw [changes.slabLen]
    exact changes.inSlab
  · obtain ⟨kind, rfl⟩ := mem_liveSidecars.mp mem
    rw [changes.slabPtr]
    exact (seated kind (isLive_residentOf.mp live)).1
  · obtain ⟨kind, rfl⟩ := mem_liveSidecars.mp mem
    rw [changes.slabPtr]
    exact (seated kind (isLive_residentOf.mp live)).2.1
  · obtain ⟨kind, rfl⟩ := mem_liveSidecars.mp mem
    exact (seated kind (isLive_residentOf.mp live)).2.2.1
  · obtain ⟨kind, rfl⟩ := mem_liveSidecars.mp mem
    exact ⟨alignOf_isPower kind, (seated kind (isLive_residentOf.mp live)).2.2.2⟩
  · show (next.storageOf first).ptr + (next.storageOf first).bytes ≤ (next.storageOf second).ptr ∨
      (next.storageOf second).ptr + (next.storageOf second).bytes ≤ (next.storageOf first).ptr
    by_cases isFirst : first = owner
    · subst isFirst
      by_cases live : next.storageOf first = .empty
      · rw [live]
        exact .inl (Nat.zero_le _)
      · rw [changes.others second ne.symm]
        exact ((changes.block live).apart second ne.symm).symm
    · rw [changes.others first isFirst]
      by_cases isSecond : second = owner
      · subst isSecond
        by_cases live : next.storageOf second = .empty
        · rw [live]
          exact .inr (Nat.zero_le _)
        · exact (changes.block live).apart first ne
      · rw [changes.others second isSecond]
        exact holds.storageOf_apart ne

/-- The leases still fit. -/
theorem fits {lease : EndpointLeaseSlot × Nat} (mem : lease ∈ contents.leases)
    (occupied : lease.1.isOccupied = true) : LeaseFits next lease := by
  have isFit := holds.fits lease mem occupied
  refine ⟨isFit.filled, changes.below lease mem occupied, ?_, ?_⟩
  · rw [changes.slabLen]
    exact isFit.high
  · rw [changes.slabPtr]
    exact isFit.aligned

theorem leases (other : owner ≠ .endpointLeases) :
    Table platform.leases next.lanes.memory next.endpointLeaseStorage
      (contents.leases.map Prod.fst) := by
  have isStorage : next.endpointLeaseStorage = rv.endpointLeaseStorage :=
    changes.others .endpointLeases other.symm
  rw [isStorage]
  exact holds.leases.same (changes.bytes .endpointLeases other.symm)

theorem resolvers (other : owner ≠ .resolvers) :
    Table platform.resolvers next.lanes.memory next.resolverStorage contents.resolvers := by
  have isStorage : next.resolverStorage = rv.resolverStorage :=
    changes.others .resolvers other.symm
  rw [isStorage]
  exact holds.resolvers.same (changes.bytes .resolvers other.symm)

theorem attachments (other : owner ≠ .associations) :
    next.lanes.tableRange.Represents platform.usizeMax contents.attachments ∧
      next.assocStorage = next.lanes.assoc.block := by
  have isStorage : next.assocStorage = rv.assocStorage := changes.others .associations other.symm
  have isSame := changes.bytes .associations other.symm
  have isBlock : rv.storageOf .associations = rv.lanes.assoc.block := holds.assoc
  have sameAssoc : next.lanes.assoc = rv.lanes.assoc := by
    rw [changes.lanes other]
  refine ⟨?_, by rw [isStorage, sameAssoc]; exact holds.assoc⟩
  have isRange : next.lanes.tableRange =
      { rv.lanes.tableRange with memory := next.lanes.memory } := by
    rw [LaneStore.tableRange, changes.lanes other]
    rfl
  rw [isRange]
  cases isBound : rv.lanes.assoc.isBound with
  | false => exact holds.lanes.ofUnbound isBound next.lanes.memory
  | true =>
    obtain ⟨front, back, isHeld⟩ := holds.lanes.holds
    have block := holds.lanes.block isBound
    rw [isBlock, AssocTable.block, if_pos isBound] at isSame
    refine holds.lanes.withMemory ⟨isHeld.laid, ?_, isHeld.listed, isHeld.dead⟩
    exact (AssocTable.entries_relocate block.stored block.stored rfl isSame).trans isHeld.entries

/-- The table of leases is another one. -/
theorem holdsLeases (isOwner : owner = .endpointLeases) {leases : List (EndpointLeaseSlot × Nat)}
    (table : Table platform.leases next.lanes.memory next.endpointLeaseStorage
      (leases.map Prod.fst))
    (count : leases.length ≤ 65536)
    (fits : ∀ lease ∈ leases, lease.1.isOccupied = true → LeaseFits next lease)
    (apart : leases.Pairwise LeasesApart) : Holds platform next { contents with leases } := by
  subst isOwner
  obtain ⟨lanes, assoc⟩ := changes.attachments holds (by decide)
  exact ⟨changes.resting holds, changes.small, table, count, fits, apart, lanes, assoc,
    changes.resolvers holds (by decide), changes.generation.trans holds.generation⟩

/-- The association table is another one. -/
theorem holdsLanes (isOwner : owner = .associations) {attachments : Attachments}
    (lanes : next.lanes.tableRange.Represents platform.usizeMax attachments)
    (assoc : next.assocStorage = next.lanes.assoc.block) :
    Holds platform next { contents with attachments } := by
  subst isOwner
  exact ⟨changes.resting holds, changes.small, changes.leases holds (by decide), holds.leaseCount,
    fun lease mem => changes.fits holds mem, holds.apart, lanes, assoc,
    changes.resolvers holds (by decide), changes.generation.trans holds.generation⟩

/-- The table of resolvers is another one. -/
theorem holdsResolvers (isOwner : owner = .resolvers) {resolvers : List (Option (Key × Ref))}
    (table : Table platform.resolvers next.lanes.memory next.resolverStorage resolvers) :
    Holds platform next { contents with resolvers } := by
  subst isOwner
  obtain ⟨lanes, assoc⟩ := changes.attachments holds (by decide)
  exact ⟨changes.resting holds, changes.small, changes.leases holds (by decide), holds.leaseCount,
    fun lease mem => changes.fits holds mem, holds.apart, lanes, assoc, table,
    changes.generation.trans holds.generation⟩

end

end Changes

/-! ### Kinds of changes -/

/-- The rendezvous with another block of an owner. -/
def withBlock (rv : Rendezvous) (owner : ResidentSidecarKind) (storage : Sidecar)
    (lanes : LaneStore) (imageFrontier : Nat) : Rendezvous :=
  match owner with
  | .endpointLeases => { rv with endpointLeaseStorage := storage, lanes, imageFrontier }
  | .associations => { rv with assocStorage := storage, lanes, imageFrontier }
  | .resolvers => { rv with resolverStorage := storage, lanes, imageFrontier }

variable {lease : PersistentSidecarLease}

section WithBlock

variable {storage : Sidecar} {lanes : LaneStore} {imageFrontier : Nat}

theorem withBlock_own :
    (rv.withBlock owner storage lanes imageFrontier).storageOf owner = storage := by
  cases owner <;> rfl

theorem withBlock_others {kind : ResidentSidecarKind} (other : kind ≠ owner) :
    (rv.withBlock owner storage lanes imageFrontier).storageOf kind = rv.storageOf kind := by
  cases owner <;> cases kind <;> first | rfl | exact absurd rfl other

theorem withBlock_lanes : (rv.withBlock owner storage lanes imageFrontier).lanes = lanes := by
  cases owner <;> rfl

theorem withBlock_imageFrontier :
    (rv.withBlock owner storage lanes imageFrontier).imageFrontier = imageFrontier := by
  cases owner <;> rfl

theorem withBlock_same (rv : Rendezvous) (owner : ResidentSidecarKind) (storage : Sidecar)
    (lanes : LaneStore) (imageFrontier : Nat) :
    (rv.withBlock owner storage lanes imageFrontier).slabPtr = rv.slabPtr ∧
    (rv.withBlock owner storage lanes imageFrontier).slabLen = rv.slabLen ∧
    (rv.withBlock owner storage lanes imageFrontier).endpointLeaseGeneration =
      rv.endpointLeaseGeneration := by
  cases owner <;> exact ⟨rfl, rfl, rfl⟩

/-- An owner writes into its block and keeps the front of it, or gives it up. -/
theorem Holds.changesWithin (holds : Holds platform rv contents)
    (within : storage ≠ .empty → rv.storageOf owner ≠ .empty ∧
      storage.ptr = (rv.storageOf owner).ptr ∧ alignOf platform owner ≤ storage.bytes ∧
      storage.bytes ≤ (rv.storageOf owner).bytes)
    (agree : AgreeOutside (rv.storageOf owner).ptr
      ((rv.storageOf owner).ptr + (rv.storageOf owner).bytes) rv.lanes.memory lanes.memory)
    (onlyMemory : owner ≠ .associations → lanes = { rv.lanes with memory := lanes.memory }) :
    Changes platform rv (rv.withBlock owner storage lanes rv.imageFrontier) contents owner := by
  obtain ⟨samePtr, sameLen, sameGeneration⟩ := withBlock_same rv owner storage lanes
    rv.imageFrontier
  refine ⟨samePtr, sameLen, sameGeneration, fun kind => withBlock_others, fun kind other => ?_,
    fun other => ?_, ?_, ?_, ?_, fun lease mem occupied => ?_, fun live => ?_⟩
  · rw [withBlock_lanes]
    exact agree.sameBytes (holds.storageOf_apart other)
  · rw [withBlock_lanes]
    exact onlyMemory other
  · rw [withBlock_imageFrontier]
  · rw [withBlock_imageFrontier]
    exact holds.resting.frontier
  · rw [withBlock_imageFrontier]
    exact holds.small
  · rw [withBlock_imageFrontier]
    exact (holds.fits lease mem occupied).low
  · rw [withBlock_own] at live
    obtain ⟨wasLive, isPtr, filled, fewer⟩ := within live
    have seated := holds.seated wasLive
    have high := seated.high
    refine ⟨?_, ?_, ?_, ?_, fun kind other => ?_⟩
    · rw [withBlock_own, isPtr]
      exact seated.low
    · rw [withBlock_own, withBlock_imageFrontier, isPtr]
      omega
    · rw [withBlock_own, isPtr]
      exact seated.aligned
    · rwa [withBlock_own]
    · rw [withBlock_own, isPtr]
      have apart := seated.apart kind other
      omega

/-- An owner writes into its block. -/
theorem Holds.changesBytes (holds : Holds platform rv contents) (owner : ResidentSidecarKind)
    {memory : Memory} (agree : AgreeOutside (rv.storageOf owner).ptr
      ((rv.storageOf owner).ptr + (rv.storageOf owner).bytes) rv.lanes.memory memory) :
    Changes platform rv { rv with lanes := { rv.lanes with memory } } contents owner := by
  have isBlock : rv.withBlock owner (rv.storageOf owner) { rv.lanes with memory } rv.imageFrontier =
      { rv with lanes := { rv.lanes with memory } } := by
    cases owner <;> rfl
  rw [← isBlock]
  exact holds.changesWithin (fun live => ⟨live, rfl, (holds.seated live).filled, le_rfl⟩)
    agree fun _ => rfl

/-- An owner takes a planned block. -/
theorem Planned.changesTo {bytes : Nat}
    (planned : Planned rv contents bytes (alignOf platform owner) lease)
    (filled : alignOf platform owner ≤ bytes)
    (agree : AgreeOutside lease.storage.ptr (lease.storage.ptr + bytes) rv.lanes.memory
      lanes.memory)
    (onlyMemory : owner ≠ .associations → lanes = { rv.lanes with memory := lanes.memory }) :
    Changes platform rv (rv.withBlock owner lease.storage lanes lease.imageFrontier) contents
      owner := by
  obtain ⟨samePtr, sameLen, sameGeneration⟩ := withBlock_same rv owner lease.storage lanes
    lease.imageFrontier
  refine ⟨samePtr, sameLen, sameGeneration, fun kind => withBlock_others, fun kind other => ?_,
    fun other => ?_, ?_, ?_, ?_, fun lease mem occupied => ?_, fun live => ?_⟩
  · rw [withBlock_lanes]
    exact agree.sameBytes (planned.apart kind)
  · rw [withBlock_lanes]
    exact onlyMemory other
  · rw [withBlock_imageFrontier]
    exact planned.raises
  · rw [withBlock_imageFrontier]
    exact planned.inSlab
  · rw [withBlock_imageFrontier]
    exact planned.small
  · rw [withBlock_imageFrontier]
    exact planned.below lease mem occupied
  · refine ⟨?_, ?_, ?_, ?_, fun kind other => ?_⟩
    · rw [withBlock_own]
      exact planned.low
    · rw [withBlock_own, withBlock_imageFrontier, planned.size]
      exact planned.high
    · rw [withBlock_own]
      exact planned.aligned
    · rwa [withBlock_own, planned.size]
    · rw [withBlock_own, planned.size]
      exact planned.apart kind

end WithBlock

/-- A planned block begins at a place of its own. -/
theorem Planned.ptr_ne {bytes align : Nat} (planned : Planned rv contents bytes align lease)
    (holds : Holds platform rv contents) (filled : 0 < bytes) (kind : ResidentSidecarKind) :
    lease.storage.ptr ≠ (rv.storageOf kind).ptr := by
  have low := planned.low
  have nonnull := holds.resting.space.nonnull
  by_cases live : rv.storageOf kind = .empty
  · rw [live]
    show lease.storage.ptr ≠ 0
    omega
  · have wasFilled := Nat.lt_of_lt_of_le (isPowerOfTwo_pos (alignOf_isPower kind))
      (holds.seated live).filled
    have apart := planned.apart kind
    omega

/-! ### Retired blocks -/

theorem Resting.isEmpty_storageOf (resting : Resting platform rv) (kind : ResidentSidecarKind) :
    (rv.storageOf kind).isEmpty = .ok (decide (rv.storageOf kind = .empty)) := by
  have mem : residentOf platform rv kind ∈ rv.liveSidecars platform :=
    mem_liveSidecars.mpr ⟨kind, rfl⟩
  have isEmpty : (rv.storageOf kind).isEmpty = .ok !isLive (residentOf platform rv kind) :=
    isEmpty_settled resting.space (resting.settled mem)
  rw [isEmpty, isLive, decide_not, Bool.not_not]
  rfl

theorem SameRange.refl (rv : Rendezvous) : SameRange rv rv := ⟨rfl, rfl, rfl, rfl, rfl, rfl⟩

variable {middle : Rendezvous}

theorem SameRange.trans (first : SameRange rv middle) (second : SameRange middle next) :
    SameRange rv next :=
  ⟨second.slabPtr.trans first.slabPtr, second.slabLen.trans first.slabLen,
    second.laneBase.trans first.laneBase, second.laneEnd.trans first.laneEnd,
    second.laneSlots.trans first.laneSlots, second.assocSlots.trans first.assocSlots⟩

/-- The slab is where it was. -/
def SameSlab (rv next : Rendezvous) : Prop :=
  next.slabPtr = rv.slabPtr ∧ next.slabLen = rv.slabLen

theorem SameSlab.trans (first : SameSlab rv middle) (second : SameSlab middle next) :
    SameSlab rv next :=
  ⟨second.1.trans first.1, second.2.trans first.2⟩

theorem SameRange.sameSlab (sameRange : SameRange rv next) : SameSlab rv next :=
  ⟨sameRange.slabPtr, sameRange.slabLen⟩

theorem Changes.sameSlab (changes : Changes platform rv next contents owner) : SameSlab rv next :=
  ⟨changes.slabPtr, changes.slabLen⟩

section Retired

variable {after : Contents Key Ref} (holds : Holds platform rv contents)
  (changes : Changes platform rv next contents owner)
  (fresh : next.storageOf owner ≠ .empty →
    (next.storageOf owner).ptr ≠ (rv.storageOf owner).ptr)

include holds changes fresh

/-- A block that its owner has given up is retired by a compaction. -/
theorem Changes.retire_eq (live : rv.storageOf owner ≠ .empty) :
    next.retirePersistentSidecar platform (rv.storageOf owner) =
      next.compactLiveSidecars platform := by
  have seated := holds.seated live
  have resting := changes.resting holds
  have high := seated.high
  have low := seated.low
  have filled := Nat.lt_of_lt_of_le (isPowerOfTwo_pos (alignOf_isPower owner)) seated.filled
  have frontier := resting.frontier
  have raises := changes.raises
  have inSlab : InSlab next (rv.storageOf owner) := by
    refine ⟨filled, ?_, ?_⟩
    · rw [changes.slabPtr]
      exact low
    · rw [changes.slabPtr]
      omega
  have notLive : (next.liveSidecars platform).anyM (m := Run) (fun live => do
      if ← live.storage.isEmpty then return false
      else return decide (live.storage.ptr = (rv.storageOf owner).ptr)) = .ok false := by
    refine Run.anyM_eq_false fun resident mem => ?_
    obtain ⟨kind, rfl⟩ := mem_liveSidecars.mp mem
    show ((next.storageOf kind).isEmpty >>= _) = _
    rw [resting.isEmpty_storageOf, Run.bind_ok]
    by_cases isSome : next.storageOf kind = .empty
    · rw [if_pos (decide_eq_true isSome)]
      rfl
    · rw [if_neg fun isTrue => isSome (of_decide_eq_true isTrue)]
      refine congrArg Except.ok (decide_eq_false ?_)
      show (next.storageOf kind).ptr ≠ (rv.storageOf owner).ptr
      by_cases isOwner : kind = owner
      · subst isOwner
        exact fresh isSome
      · rw [changes.others kind isOwner] at isSome ⊢
        have otherFilled := Nat.lt_of_lt_of_le (isPowerOfTwo_pos (alignOf_isPower kind))
          (holds.seated isSome).filled
        have apart := holds.storageOf_apart isOwner
        omega
  rw [retirePersistentSidecar, sidecarRange_inSlab resting.space inSlab, Run.bind_ok]
  dsimp only
  rw [if_neg (by rw [changes.slabPtr]; omega), notLive, Run.bind_ok, if_neg Bool.false_ne_true]

theorem Changes.retire (isHeld : Holds platform next after) :
    ∃ rest, next.retirePersistentSidecar platform (rv.storageOf owner) = .ok rest ∧
      Holds platform rest after ∧ SameRange next rest ∧
      (rv.storageOf owner ≠ .empty → Tight platform rest) := by
  by_cases live : rv.storageOf owner = .empty
  · refine ⟨next, ?_, isHeld, .refl next, absurd live⟩
    rw [live, retirePersistentSidecar, sidecarRange_empty]
    rfl
  · obtain ⟨_, _, rest, _, isOk, isRest, _, sameRange, tight⟩ := isHeld.compact
    exact ⟨rest, (changes.retire_eq holds fresh live).trans isOk, isRest, sameRange, fun _ => tight⟩

end Retired

end Rendezvous

end Hibana
