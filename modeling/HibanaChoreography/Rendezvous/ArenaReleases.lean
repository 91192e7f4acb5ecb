/-
This file is about the end of a lease: a release makes its slot vacant and gives back what
the tables no longer need, and an abort takes its generation back as well. Sealed
memberships are here too, since they change the slots of a whole session.
-/

import HibanaChoreography.Rendezvous.ArenaReservations
import HibanaChoreography.Rendezvous.ArenaTables

namespace Hibana

open Outcome ByteMemory Packing ResidentSidecar

theorem EndpointLeaseSlot.isOccupied_of_isPublished {slot : EndpointLeaseSlot}
    (published : slot.isPublished = true) : slot.isOccupied = true := by
  rw [isPublished, EndpointLeaseState.isPublished, decide_eq_true_eq] at published
  rw [isOccupied]
  rcases published with isState | isState <;> rw [isState] <;> rfl

namespace Rendezvous

variable {Key Ref : Type} {platform : Platform Key Ref} {rv next : Rendezvous}
  {contents : Contents Key Ref}

/-! ### Fewer entries and lanes -/

/-- The range of lanes while the table of the lanes is shrunk: it is that of the table, unless the
table has given its block back. -/
structure Shrinking (rv : Rendezvous) : Prop where
  low : rv.lanes.laneBase ≤ rv.lanes.laneEnd
  bound : rv.lanes.assoc.isBound = true → Ranged rv

theorem isBound_congr (holds : Holds platform rv contents) (isNext : Holds platform next contents)
    (sameRange : SameRange rv next) (isBound : next.lanes.assoc.isBound = true) :
    rv.lanes.assoc.isBound = true := by
  cases wasBound : rv.lanes.assoc.isBound with
  | true => rfl
  | false =>
    have isEmpty : rv.lanes.assoc = .initEmpty := holds.lanes.unbound wasBound
    have pos : 0 < next.lanes.assoc.assocSlots := (isNext.lanes.block isBound).positive
    rw [sameRange.assocSlots, isEmpty] at pos
    exact absurd pos (Nat.lt_irrefl 0)

theorem Shrinking.congr (shrinking : Shrinking rv) (holds : Holds platform rv contents)
    (isNext : Holds platform next contents) (sameRange : SameRange rv next) : Shrinking next where
  low := by
    rw [sameRange.laneBase, sameRange.laneEnd]
    exact shrinking.low
  bound := fun isBound =>
    (shrinking.bound (isBound_congr holds isNext sameRange isBound)).congr sameRange

/-- The association table gives up its vacant entries. -/
theorem Holds.shrinkAssoc (holds : Holds platform rv contents) (ranged : Ranged rv) :
    ∃ next, rv.shrinkAssocTableCapacity platform
        (rv.lanes.assoc.activeEntryCount rv.lanes.memory) = .ok next ∧
      Holds platform next contents ∧ Shrinking next ∧ SameSlab rv next ∧ Lowered rv next := by
  have represents : rv.lanes.Represents platform.usizeMax contents.attachments :=
    ranged.tableRange ▸ holds.lanes
  have laneEnd := ranged.1
  have few : rv.lanes.assoc.activeEntryCount rv.lanes.memory ≤ rv.lanes.assoc.assocSlots := by
    refine Nat.le_trans List.countP_le_length ?_
    rw [AssocTable.length_entries]
  rw [shrinkAssocTableCapacity, LaneStore.shrinkAssocTable, if_neg (Nat.not_lt.mpr few)]
  by_cases isAll : rv.lanes.assoc.activeEntryCount rv.lanes.memory = rv.lanes.assoc.assocSlots
  · rw [if_pos isAll, Run.bind_ok, if_pos isAll]
    exact ⟨rv, rfl, holds, ⟨by omega, fun _ => ranged⟩, ⟨rfl, rfl⟩, ⟨le_rfl, le_rfl⟩⟩
  have lowered : ∀ {next : Rendezvous}, Holds platform next contents → SameSlab rv next →
      Tight platform next → next.lanes.assoc.assocSlots ≤ rv.lanes.assoc.assocSlots →
      Lowered rv next := fun isNext sameSlab tight fewerSlots =>
    ⟨tight.frontier_le isNext holds sameSlab.1 le_rfl fewerSlots le_rfl,
      fewerSlots⟩
  have isBound : rv.lanes.assoc.isBound = true := by
    cases isBound : rv.lanes.assoc.isBound with
    | true => rfl
    | false =>
      rw [show rv.lanes.assoc = .initEmpty from holds.lanes.unbound isBound] at few isAll
      exact absurd (Nat.le_zero.mp few) isAll
  have isBlock : rv.assocStorage =
      ⟨rv.lanes.assoc.entrySids, AssocTable.blockBytes rv.lanes.assoc.assocSlots⟩ := by
    rw [holds.assoc, AssocTable.block, if_pos isBound]
  have live : rv.storageOf .associations ≠ .empty := by
    have isLive := AssocTable.isBound_iff.mp isBound
    rw [← holds.assoc] at isLive
    exact isLive
  by_cases noneLive : rv.lanes.assoc.activeEntryCount rv.lanes.memory = 0
  · obtain ⟨isOk, isHeld⟩ := represents.clear noneLive
    let empty := rv.withBlock .associations .empty { rv.lanes with assoc := .initEmpty }
      rv.imageFrontier
    have changes : Changes platform rv empty contents .associations :=
      holds.changesWithin (fun isLive => absurd rfl isLive) (fun _ _ => rfl)
        fun other => absurd rfl other
    have cleared := changes.holdsLanes holds rfl isHeld rfl
    obtain ⟨next, isRetired, isNext, sameRange, tight⟩ := changes.retire holds
      (fun isLive => absurd rfl isLive) cleared
    have sameSlab := changes.sameSlab.trans sameRange.sameSlab
    have low : rv.lanes.laneBase ≤ rv.lanes.laneEnd := by omega
    have shrinking : Shrinking empty :=
      ⟨low, fun stillBound => absurd stillBound Bool.false_ne_true⟩
    rw [if_neg isAll, if_pos noneLive, isOk, Run.bind_ok, if_neg isAll, if_pos noneLive]
    refine ⟨next, isRetired, isNext, shrinking.congr cleared isNext sameRange, sameSlab,
      lowered isNext sameSlab (tight live) ?_⟩
    rw [sameRange.assocSlots]
    exact Nat.zero_le _
  · have pos := Nat.pos_of_ne_zero noneLive
    obtain ⟨memory, isOk, isHeld, agree⟩ := represents.shrink isBound pos (by omega) le_rfl
    have isBytes : AssocTable.storageBytes platform.usizeMax
        (rv.lanes.assoc.activeEntryCount rv.lanes.memory) = .ok (AssocTable.blockBytes
          (rv.lanes.assoc.activeEntryCount rv.lanes.memory)) :=
      AssocTable.storageBytes_eq pos (by
        have fits := (represents.block isBound).fits
        unfold AssocTable.blockBytes at fits ⊢
        omega)
    generalize rv.lanes.assoc.activeEntryCount rv.lanes.memory = required at *
    let shrunk : LaneStore := { rv.lanes with
      memory
      assoc := .ofBlock rv.lanes.assoc.entrySids rv.lanes.assoc.laneBase rv.lanes.assoc.laneSlots
        required }
    have isRange : shrunk.tableRange = shrunk := by
      rw [LaneStore.tableRange, show shrunk.laneBase + shrunk.assoc.laneSlots = shrunk.laneEnd from
        laneEnd.symm]
    have isPtr : rv.lanes.assoc.entrySids = rv.assocStorage.ptr := by rw [isBlock]
    let small := rv.withBlock .associations
      ⟨rv.lanes.assoc.entrySids, AssocTable.blockBytes required⟩ shrunk rv.imageFrontier
    have changes : Changes platform rv small contents .associations := by
      refine holds.changesWithin (fun _ => ⟨live, isPtr, AssocTable.storageAlign_le pos, ?_⟩) ?_
        fun other => absurd rfl other
      · show AssocTable.blockBytes required ≤ rv.assocStorage.bytes
        rw [isBlock]
        show AssocTable.blockBytes required ≤ AssocTable.blockBytes rv.lanes.assoc.assocSlots
        unfold AssocTable.blockBytes
        omega
      · show AgreeOutside rv.assocStorage.ptr (rv.assocStorage.ptr + rv.assocStorage.bytes) _ _
        rw [isBlock]
        exact agree
    have isSmall := changes.holdsLanes holds rfl (show shrunk.tableRange.Represents _ _ by
      rw [isRange]
      exact isHeld) (AssocTable.block_ofBlock (of_decide_eq_true isBound) _ _ _).symm
    obtain ⟨_, _, next, _, isCompact, isNext, _, sameRange, tight⟩ := isSmall.compact
    have sameSlab := changes.sameSlab.trans sameRange.sameSlab
    have low : rv.lanes.laneBase ≤ rv.lanes.laneEnd := by omega
    have shrinking : Shrinking small := ⟨low, fun _ => ⟨laneEnd, ranged.2⟩⟩
    have inSlab : rv.slabPtr ≤ rv.lanes.assoc.entrySids := isPtr ▸ (holds.seated live).low
    refine ⟨next, ?_, isNext, shrinking.congr isSmall isNext sameRange, sameSlab,
      lowered isNext sameSlab tight (sameRange.assocSlots ▸ few)⟩
    rw [if_neg isAll, if_neg noneLive, ← isPtr, isOk, Run.bind_ok, if_neg isAll, if_neg noneLive,
      isBytes, Run.bind_ok, fromRawParts_inSlab holds.resting.space inSlab
        (Nat.lt_of_lt_of_le (by decide) (AssocTable.storageAlign_le pos)), Run.bind_ok]
    exact isCompact

/-- The range of lanes goes down to the last lane that is held. -/
theorem Holds.shrinkLanes (holds : Holds platform rv contents) (shrinking : Shrinking rv) :
    ∃ next, rv.shrinkLaneRange (rv.lanes.assoc.activeLaneSlots rv.lanes.memory) = .ok next ∧
      Holds platform next contents ∧ Ranged next ∧ SameSlab rv next ∧ Lowered rv next := by
  have isBlock : rv.storageOf .associations = rv.assocStorage := rfl
  have within : rv.assocStorage ≠ .empty → rv.storageOf .associations ≠ .empty ∧
      rv.assocStorage.ptr = (rv.storageOf .associations).ptr ∧
      alignOf platform .associations ≤ rv.assocStorage.bytes ∧
      rv.assocStorage.bytes ≤ (rv.storageOf .associations).bytes := fun live => by
    rw [← isBlock] at live
    exact ⟨live, rfl, (holds.seated live).filled, le_rfl⟩
  rw [Rendezvous.shrinkLaneRange]
  cases isBound : rv.lanes.assoc.isBound with
  | false =>
    have isEmpty : rv.lanes.assoc = .initEmpty := holds.lanes.unbound isBound
    have noLanes : rv.lanes.assoc.activeLaneSlots rv.lanes.memory = 0 := by
      rw [isEmpty]
      rfl
    let narrow := rv.withBlock .associations rv.assocStorage
      { rv.lanes with laneEnd := rv.lanes.laneBase + 0 } rv.imageFrontier
    have changes : Changes platform rv narrow contents .associations :=
      holds.changesWithin within (fun _ _ => rfl) fun other => absurd rfl other
    have isRanged : Ranged narrow := by
      refine ⟨?_, ?_⟩
      · show rv.lanes.laneBase + 0 = rv.lanes.laneBase + rv.lanes.assoc.laneSlots
        rw [isEmpty]
        rfl
      · show rv.lanes.assoc.laneSlots ≤ laneDomainSize
        rw [isEmpty]
        exact Nat.zero_le _
    refine ⟨narrow, ?_, changes.holdsLanes holds rfl holds.lanes holds.assoc, isRanged,
      changes.sameSlab, ⟨le_rfl, le_rfl⟩⟩
    rw [noLanes, LaneStore.shrinkLaneRange, LaneStore.laneSlotCount,
      if_neg (Nat.not_lt.mpr shrinking.low), Run.bind_ok, if_neg (Nat.not_lt_zero _), isBound]
    rfl
  | true =>
    have ranged := shrinking.bound isBound
    have represents : rv.lanes.Represents platform.usizeMax contents.attachments :=
      ranged.tableRange ▸ holds.lanes
    obtain ⟨front, back, isHeld⟩ := represents.holds
    have fewer : rv.lanes.assoc.activeLaneSlots rv.lanes.memory ≤ rv.lanes.assoc.laneSlots := by
      rw [LaneStore.activeLaneSlots_le isHeld]
      intro sid lane isPositive
      obtain ⟨entry, mem, _, rfl⟩ := isHeld.listed.complete sid lane isPositive
      have inRange := (isHeld.listed.stores entry mem).inRange
      omega
    obtain ⟨isOk, isNarrow⟩ := represents.narrow isBound fewer le_rfl
    generalize rv.lanes.assoc.activeLaneSlots rv.lanes.memory = required at *
    let narrow := rv.withBlock .associations rv.assocStorage
      { rv.lanes with
        assoc := { rv.lanes.assoc with laneSlots := required }
        laneEnd := rv.lanes.laneBase + required } rv.imageFrontier
    have changes : Changes platform rv narrow contents .associations :=
      holds.changesWithin within (fun _ _ => rfl) fun other => absurd rfl other
    refine ⟨narrow, ?_, changes.holdsLanes holds rfl isNarrow holds.assoc,
      ⟨rfl, Nat.le_trans fewer ranged.2⟩, changes.sameSlab, ⟨le_rfl, le_rfl⟩⟩
    rw [isOk]
    rfl

/-! ### The end of a lease -/

/-- The slots behind a release. -/
def releasedSlots (leases : List (EndpointLeaseSlot × Nat)) (index : Nat) (generation : UInt32) :
    List (EndpointLeaseSlot × Nat) :=
  occupiedSlots (leases.set index ({ EndpointLeaseSlot.empty with generation }, 1))

variable {lease : EndpointLeaseSlot × Nat} {leaseSlot : UInt16} {generation : UInt32}

/-- A lease is released. -/
theorem Holds.release (holds : Holds platform rv contents) (ranged : Ranged rv)
    (isLease : contents.leases[leaseSlot.toNat]? = some lease)
    (occupied : lease.1.isOccupied = true) (isGeneration : lease.1.generation = generation) :
    ∃ next, rv.releaseEndpointLease platform leaseSlot generation = .ok next ∧ Holds platform next
        { contents with leases := releasedSlots contents.leases leaseSlot.toNat generation } ∧
      Ranged next ∧ SameSlab rv next ∧ Lowered rv next ∧
      ((releasedSlots contents.leases leaseSlot.toNat generation).length ≠
        contents.leases.length → Tight platform next) := by
  obtain ⟨inside, _⟩ := List.getElem?_eq_some_iff.mp isLease
  obtain ⟨vacated, isVacated, isHeld, sameRange, sameFrontier⟩ :=
    holds.vacateSlot inside ({ EndpointLeaseSlot.empty with generation }, 1) rfl
  obtain ⟨shrunk, isShrunk, isSmall, shrinking, shrunkSlab, shrunkLower⟩ :=
    isHeld.shrinkAssoc (ranged.congr sameRange)
  obtain ⟨narrow, isNarrow, isNarrowed, isRanged, narrowSlab, narrowLower⟩ :=
    isSmall.shrinkLanes shrinking
  obtain ⟨next, isOk, isNext, nextRange, nextLower, tight⟩ := isNarrowed.shrinkCapacity
  have lowered : Lowered rv vacated :=
    ⟨Nat.le_of_eq sameFrontier, Nat.le_of_eq sameRange.assocSlots⟩
  refine ⟨next, ?_, isNext, isRanged.congr nextRange,
    ((sameRange.sameSlab.trans shrunkSlab).trans narrowSlab).trans nextRange.sameSlab,
    ((lowered.trans shrunkLower).trans narrowLower).trans nextLower, fun fewer => tight ?_⟩
  swap
  · rwa [List.length_set]
  rw [releaseEndpointLease, holds.slotByIndex, Run.bind_ok, isLease]
  dsimp only [Option.map_some]
  rw [if_neg (not_or.mpr ⟨not_not_intro occupied, not_not_intro isGeneration⟩), isGeneration,
    isVacated, Run.bind_ok, isShrunk, Run.bind_ok, isNarrow, Run.bind_ok, isOk]

/-- The reservation of the last generation is aborted. -/
theorem Holds.abort (holds : Holds platform rv contents) (ranged : Ranged rv)
    (isLease : contents.leases[leaseSlot.toNat]? = some lease)
    (isReserved : lease.1.state = .reserved) (isGeneration : lease.1.generation = generation)
    (isLast : contents.generation = generation) (pos : generation ≠ 0) :
    ∃ next, rv.abortEndpointLeaseReservation platform leaseSlot generation = .ok next ∧
      Holds platform next { contents with
        leases := releasedSlots contents.leases leaseSlot.toNat generation
        generation := generation - 1 } ∧
      Ranged next ∧ SameSlab rv next ∧ Lowered rv next ∧
      ((releasedSlots contents.leases leaseSlot.toNat generation).length ≠
        contents.leases.length → Tight platform next) := by
  have occupied : lease.1.isOccupied = true := by
    rw [EndpointLeaseSlot.isOccupied, isReserved]
    rfl
  obtain ⟨released, isReleased, isHeld, isRanged, sameSlab, lowered, tight⟩ :=
    holds.release ranged isLease occupied isGeneration
  refine ⟨{ released with endpointLeaseGeneration := generation - 1 }, ?_,
    isHeld.withGeneration (generation - 1), isRanged, sameSlab,
    ⟨lowered.frontier, lowered.assocSlots⟩, tight⟩
  rw [abortEndpointLeaseReservation, holds.slotByIndex, Run.bind_ok, isLease]
  dsimp only [Option.map_some]
  rw [if_neg, if_neg pos, isReleased]
  · rfl
  · rw [holds.generation]
    rintro (notReserved | notGeneration | notLast)
    · exact notReserved isReserved
    · exact notGeneration isGeneration
    · exact notLast isLast

/-! ### Sealed memberships -/

/-- A published lease of a session, sealed. -/
def sealedLease (sid : UInt32) (lease : EndpointLeaseSlot × Nat) : EndpointLeaseSlot × Nat :=
  if lease.1.sid = sid ∧ lease.1.isPublished then
    ({ lease.1 with state := .membershipSealed }, lease.2)
  else lease

theorem Holds.sealSlot {front back : List (EndpointLeaseSlot × Nat)}
    (holds : Holds platform rv { contents with leases := front ++ lease :: back }) (sid : UInt32) :
    ∃ next, rv.sealSlot platform sid front.length = .ok next ∧
      Holds platform next { contents with leases := front ++ sealedLease sid lease :: back } ∧
      SameRange rv next := by
  have isLease : (front ++ lease :: back)[front.length]? = some lease := by simp
  rw [Rendezvous.sealSlot, holds.slotByIndex, Run.bind_ok]
  rw [isLease]
  dsimp only [Option.map_some]
  by_cases isMember : lease.1.sid = sid ∧ lease.1.isPublished = true
  · have isSealed : lease.1.state.sealMembership = some .membershipSealed := by
      have published := isMember.2
      rw [EndpointLeaseSlot.isPublished, EndpointLeaseState.isPublished, decide_eq_true_eq]
        at published
      rcases published with isState | isState <;> rw [isState] <;> rfl
    obtain ⟨next, isOk, isHeld, sameRange, _⟩ := holds.updateSlot isLease
      { lease.1 with state := .membershipSealed } rfl rfl fun _ =>
        EndpointLeaseSlot.isOccupied_of_isPublished isMember.2
    rw [if_pos isMember, isSealed, sealedLease, if_pos isMember]
    refine ⟨next, isOk, ?_, sameRange⟩
    rw [show (front ++ lease :: back).set front.length
      ({ lease.1 with state := .membershipSealed }, lease.2) =
        front ++ ({ lease.1 with state := .membershipSealed }, lease.2) :: back by simp] at isHeld
    exact isHeld
  · rw [if_neg isMember, sealedLease, if_neg isMember]
    exact ⟨rv, rfl, holds, .refl rv⟩

theorem Holds.sealSlots {back : List (EndpointLeaseSlot × Nat)} (sid : UInt32)
    (front : List (EndpointLeaseSlot × Nat))
    (holds : Holds platform rv { contents with leases := front ++ back }) :
    ∃ next, (List.range' front.length back.length).foldlM (Rendezvous.sealSlot platform sid) rv =
        .ok next ∧
      Holds platform next { contents with leases := front ++ back.map (sealedLease sid) } ∧
      SameRange rv next := by
  induction back generalizing front rv with
  | nil => exact ⟨rv, rfl, holds, .refl rv⟩
  | cons lease rest hyp =>
    obtain ⟨visited, isVisited, isHeld, sameRange⟩ := holds.sealSlot sid
    rw [List.append_cons] at isHeld
    obtain ⟨next, isOk, isNext, isRange⟩ := hyp _ isHeld
    refine ⟨next, ?_, ?_, sameRange.trans isRange⟩
    · rw [List.length_cons, List.range'_succ, List.foldlM_cons, isVisited, Run.bind_ok]
      rw [List.length_append] at isOk
      exact isOk
    · rw [List.map_cons, List.append_cons]
      exact isNext

/-- The published leases of a session are sealed. -/
theorem Holds.sealMembership (holds : Holds platform rv contents) {sid : UInt32}
    (isMember : ∃ lease ∈ contents.leases, lease.1.sid = sid ∧ lease.1.isPublished = true) :
    ∃ next, rv.sealSessionMembership platform sid = .ok next ∧
      Holds platform next { contents with leases := contents.leases.map (sealedLease sid) } ∧
      SameRange rv next := by
  obtain ⟨lease, mem, isPublished⟩ := isMember
  obtain ⟨next, isOk, isHeld, sameRange⟩ := holds.sealSlots sid []
  refine ⟨next, ?_, isHeld, sameRange⟩
  have isAny : (contents.leases.map Prod.fst).any (fun slot => slot.sid = sid ∧ slot.isPublished) =
      true :=
    List.any_eq_true.mpr ⟨lease.1, List.mem_map_of_mem mem, decide_eq_true isPublished⟩
  rw [sealSessionMembership, holds.slots, Run.bind_ok, if_neg (not_not_intro isAny),
    List.range_eq_range', List.length_map]
  exact isOk

end Rendezvous

end Hibana
