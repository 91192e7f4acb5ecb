/-
This file is about histories of the slab of a rendezvous: leases are allocated, published,
sealed, released and aborted, while the tables of the lanes and of the resolvers grow and
shrink beside them.

The contents of the slab are what the requests so far have made of it: a request changes
its own entries, and the moves behind it change none. No admitted request meets an
invariant failure.
-/

import HibanaChoreography.Rendezvous.ArenaReleases
import HibanaChoreography.Rendezvous.AssociationRuns

namespace Hibana

open Outcome ByteMemory Packing Machines ResidentSidecar

inductive ArenaOp (Key Ref : Type) where
  | allocate (sid : UInt32) (role : UInt8) (bytes align : Nat)
  | publish (slot : UInt16) (generation : UInt32)
  | sealMembership (sid : UInt32)
  | release (slot : UInt16) (generation : UInt32)
  | abort (slot : UInt16) (generation : UInt32)
  | growResolvers (additional : Nat)
  | insertResolver (registration : Key) (resolver : Ref)
  | growLanes (laneSlots assocSlots : Nat)
  | attach (sid : UInt32) (lane : UInt8)
  | releaseLane (sid : UInt32) (lane : UInt8)
  | poison (sid : UInt32) (cause : SessionFaultKind)

inductive ArenaReply where
  | allocated (result : Except ResourceScope Rendezvous.ReservedLease)
  | stored (result : Except ResourceScope Unit)
  | attached (result : Except RendezvousError Unit)
  | released (release : LaneRelease)
  | poisoned (kind : SessionFaultKind)
  | done

/-- A rendezvous with the allocations that were not aborted, the last one first. -/
structure Arena where
  rv : Rendezvous
  issued : List (UInt16 × UInt32)

namespace Arena

open Rendezvous

variable {Key Ref : Type}

/-- An empty slab. -/
def new (memory : Memory) (slabPtr slabLen : Nat) : Arena :=
  ⟨⟨slabPtr, slabLen, 0, 0, .empty, .empty, .empty, LaneStore.new memory⟩, []⟩

/-- A record of the table of leases. -/
def HasSlot (platform : Platform Key Ref) (arena : Arena) (slot : UInt16)
    (record : EndpointLeaseSlot) : Prop :=
  arena.rv.endpointLeaseSlotByIndex platform slot.toNat = .ok (some record)

/-- What callers may ask for. A lease has a size, and its alignment is a power of two. A lease is
published that is reserved, and released that is occupied; the last allocation may be aborted while
it is reserved. A lane is released by a session that holds it. The size of a table of resolvers is
in the domain of sizes. -/
def Admits (platform : Platform Key Ref) (arena : Arena) : ArenaOp Key Ref → Prop
  | .allocate _ _ bytes align => bytes ≠ 0 ∧ Layout.isPowerOfTwo align = true
  | .publish slot generation => ∃ record, arena.HasSlot platform slot record ∧
      record.generation = generation ∧ record.state = .reserved
  | .sealMembership sid => ∃ slot record, arena.HasSlot platform slot record ∧
      record.sid = sid ∧ record.isPublished = true
  | .release slot generation => ∃ record, arena.HasSlot platform slot record ∧
      record.generation = generation ∧ record.isOccupied = true
  | .abort slot generation => arena.issued.head? = some (slot, generation) ∧
      ∃ record, arena.HasSlot platform slot record ∧ record.generation = generation ∧
        record.state = .reserved
  | .growResolvers additional => ∀ entries, arena.rv.resolverEntries platform = .ok entries →
      (entries.countP Option.isSome + additional) * platform.resolvers.codec.size ≤
        platform.usizeMax
  | .releaseLane sid lane => arena.rv.lanes.assoc.hasEntry arena.rv.lanes.memory lane sid = true
  | .insertResolver .. | .growLanes .. | .attach .. | .poison .. => True

def perform [DecidableEq Key] (platform : Platform Key Ref) (arena : Arena) :
    ArenaOp Key Ref → Run (ArenaReply × Arena)
  | .allocate sid role bytes align => do
    let (result, rv) ← arena.rv.allocateEndpointLease platform sid role bytes align
    match result with
    | .ok lease =>
      return (.allocated (.ok lease), ⟨rv, (lease.slot, lease.generation) :: arena.issued⟩)
    | .error scope => return (.allocated (.error scope), { arena with rv })
  | .publish slot generation => do
    return (.done, { arena with rv := ← arena.rv.publishEndpointLease platform slot generation })
  | .sealMembership sid => do
    return (.done, { arena with rv := ← arena.rv.sealSessionMembership platform sid })
  | .release slot generation => do
    return (.done, { arena with rv := ← arena.rv.releaseEndpointLease platform slot generation })
  | .abort slot generation => do
    return (.done, ⟨← arena.rv.abortEndpointLeaseReservation platform slot generation,
      arena.issued.tail⟩)
  | .growResolvers additional => do
    let (result, rv) ← arena.rv.ensureDynamicResolverCapacity platform additional
    return (.stored result, { arena with rv })
  | .insertResolver registration resolver => do
    let (result, rv) ← arena.rv.insertDynamicResolver platform registration resolver
    return (.stored result, { arena with rv })
  | .growLanes laneSlots assocSlots => do
    let (result, rv) ← arena.rv.ensureLaneStorage platform laneSlots assocSlots
    return (.stored result, { arena with rv })
  | .attach sid lane => do
    let (result, lanes) ← arena.rv.lanes.activateLaneAttachment sid lane
    return (.attached result, { arena with rv := { arena.rv with lanes } })
  | .releaseLane sid lane => do
    let (release, lanes) ← arena.rv.lanes.releaseLane sid lane
    return (.released release, { arena with rv := { arena.rv with lanes } })
  | .poison sid cause => do
    let (kind, lanes) ← arena.rv.lanes.poisonSession sid cause
    return (.poisoned kind, { arena with rv := { arena.rv with lanes } })

def machine [DecidableEq Key] (platform : Platform Key Ref) :
    Machine Arena (ArenaOp Key Ref) ArenaReply :=
  ⟨Admits platform, perform platform⟩

end Arena

/-! ### What a request does to the contents -/

section Effects

open Rendezvous

variable {Key Ref : Type}

def Contents.empty : Contents Key Ref := ⟨[], .empty, [], 0⟩

/-- A published lease. -/
def publishedLease (lease : EndpointLeaseSlot × Nat) : EndpointLeaseSlot × Nat :=
  ({ lease.1 with state := .published }, lease.2)

noncomputable def ArenaOp.effect [DecidableEq Key] : ArenaOp Key Ref → ArenaReply →
    Contents Key Ref → Contents Key Ref
  | .allocate sid role _ align, .allocated (.ok lease), contents =>
    contents.reserve sid role align lease
  | .publish slot _, _, contents =>
    { contents with leases := contents.leases.modify slot.toNat publishedLease }
  | .sealMembership sid, _, contents =>
    { contents with leases := contents.leases.map (sealedLease sid) }
  | .release slot generation, _, contents =>
    { contents with leases := releasedSlots contents.leases slot.toNat generation }
  | .abort slot generation, _, contents =>
    { contents with
      leases := releasedSlots contents.leases slot.toNat generation
      generation := generation - 1 }
  | .growResolvers additional, .stored (.ok ()), contents =>
    { contents with resolvers := grownResolvers contents.resolvers additional }
  | .insertResolver registration resolver, _, contents =>
    { contents with resolvers := setResolver contents.resolvers registration resolver }
  | .attach sid lane, .attached (.ok ()), contents =>
    { contents with attachments := contents.attachments.attach sid lane.toNat }
  | .releaseLane sid lane, _, contents =>
    { contents with attachments := contents.attachments.release sid lane.toNat }
  | .poison sid cause, _, contents =>
    { contents with attachments := contents.attachments.poison sid cause }
  | _, _, contents => contents

/-- What a request that was answered tells about the contents before it. -/
def ArenaOp.Answered : ArenaOp Key Ref → ArenaReply → Contents Key Ref → Prop
  | .allocate .., .allocated (.ok lease), contents =>
    contents.generation.toNat < u32Max ∧ lease.generation = contents.generation + 1 ∧
      ∀ old, contents.leases[lease.slot.toNat]? = some old → old.1.isOccupied = false
  | .publish slot generation, _, contents => ∃ lease, contents.leases[slot.toNat]? = some lease ∧
      lease.1.generation = generation ∧ lease.1.state = .reserved
  | .release slot generation, _, contents => ∃ lease, contents.leases[slot.toNat]? = some lease ∧
      lease.1.generation = generation ∧ lease.1.isOccupied = true
  | .abort slot generation, _, contents => contents.generation = generation ∧ generation ≠ 0 ∧
      ∃ lease, contents.leases[slot.toNat]? = some lease ∧ lease.1.generation = generation ∧
        lease.1.state = .reserved
  | _, _, _ => True

end Effects

/-! ### Steps -/

namespace Arena

open Rendezvous

variable {Key Ref : Type} {platform : Platform Key Ref} {start : Rendezvous} {arena : Arena}
  {contents : Contents Key Ref}

/-- The allocations have consecutive generations. -/
def Numbered : List (UInt16 × UInt32) → Prop
  | [] => True
  | lease :: rest => lease.2.toNat = rest.length + 1 ∧ Numbered rest

/-- The slab holds some contents between two requests. -/
structure Keeps (platform : Platform Key Ref) (start : Rendezvous) (arena : Arena)
    (contents : Contents Key Ref) : Prop where
  holds : Holds platform arena.rv contents
  ranged : Ranged arena.rv
  sameSlab : SameSlab start arena.rv
  numbered : Numbered arena.issued
  counter : contents.generation.toNat = arena.issued.length

variable {slabPtr slabLen : Nat}

theorem new_keeps (platform : Platform Key Ref) (memory : Memory) (nonnull : 0 < slabPtr)
    (fits : slabPtr + slabLen ≤ platform.usizeMax) :
    Keeps platform (new memory slabPtr slabLen).rv (new memory slabPtr slabLen) .empty where
  holds := by
    have none : ∀ resident ∈ (new memory slabPtr slabLen).rv.liveSidecars platform,
        ¬ isLive resident = true := by
      intro resident mem live
      obtain ⟨kind, rfl⟩ := mem_liveSidecars.mp mem
      refine isLive_residentOf.mp live ?_
      cases kind <;> rfl
    exact ⟨⟨⟨nonnull, fits⟩, Nat.zero_le _, fun _ mem live => (none _ mem live).elim,
        fun _ mem live => (none _ mem live).elim,
        fun _ mem live => (none _ mem live).elim,
        fun _ mem live => (none _ mem live).elim,
        pairwise_liveSidecars fun first second _ => .inl (by cases first <;> exact Nat.zero_le _)⟩,
      Nat.zero_le _, Table.ofEmpty _ _, Nat.zero_le _,
      nofun, .nil,
      LaneStore.new_represents _ _, rfl, Table.ofEmpty _ _, rfl⟩
  ranged := ⟨rfl, Nat.zero_le _⟩
  sameSlab := ⟨rfl, rfl⟩
  numbered := trivial
  counter := rfl

variable {generation : UInt32}

theorem toNat_next (small : generation.toNat < u32Max) :
    (generation + 1).toNat = generation.toNat + 1 := by
  unfold u32Max at small
  rw [UInt32.toNat_add, UInt32.toNat_one]
  omega

variable {rv : Rendezvous} {op : ArenaOp Key Ref}
  {visits : List (Visit Arena (ArenaOp Key Ref) ArenaReply)}

section

variable (keeps : Keeps platform start arena contents)

include keeps

variable {after : Contents Key Ref}

theorem Keeps.withRv (holds : Holds platform rv after) (ranged : Ranged rv)
    (sameSlab : SameSlab arena.rv rv) (sameGeneration : after.generation = contents.generation) :
    Keeps platform start { arena with rv } after :=
  ⟨holds, ranged, keeps.sameSlab.trans sameSlab, keeps.numbered, sameGeneration ▸ keeps.counter⟩

theorem Keeps.withRange (holds : Holds platform rv after) (sameRange : SameRange arena.rv rv)
    (sameGeneration : after.generation = contents.generation) :
    Keeps platform start { arena with rv } after :=
  keeps.withRv holds (keeps.ranged.congr sameRange) sameRange.sameSlab sameGeneration

/-- The record of a slot is that of the contents. -/
theorem Keeps.hasSlot {slot : UInt16} {record : EndpointLeaseSlot}
    (hasSlot : arena.HasSlot platform slot record) :
    ∃ lease, contents.leases[slot.toNat]? = some lease ∧ lease.1 = record := by
  have isSlot := Except.ok.inj ((keeps.holds.slotByIndex slot.toNat).symm.trans hasSlot)
  obtain ⟨lease, isLease, rfl⟩ := Option.map_eq_some_iff.mp isSlot
  exact ⟨lease, isLease, rfl⟩

/-- The last allocation has the last generation. -/
theorem Keeps.last {slot : UInt16} (isLast : arena.issued.head? = some (slot, generation)) :
    contents.generation = generation ∧ generation ≠ 0 ∧ Numbered arena.issued.tail ∧
      (generation - 1).toNat = arena.issued.tail.length := by
  have numbered := keeps.numbered
  have counter := keeps.counter
  obtain ⟨rest, isIssued⟩ := List.head?_eq_some_iff.mp isLast
  rw [isIssued] at numbered counter ⊢
  rw [List.length_cons] at counter
  have isNumber : generation.toNat = rest.length + 1 := numbered.1
  have pos : generation ≠ 0 := fun isZero => by
    rw [isZero] at isNumber
    exact absurd isNumber (Nat.succ_ne_zero _).symm
  refine ⟨UInt32.toNat.inj (counter.trans isNumber.symm), pos, numbered.2, ?_⟩
  have isBelow : (1 : UInt32) ≤ generation := UInt32.le_iff_toNat_le.mpr (by
    rw [isNumber]
    exact Nat.le_add_left _ _)
  rw [UInt32.toNat_sub_of_le _ _ isBelow, isNumber]
  rfl

variable [DecidableEq Key]

/-- An admitted request returns, and the slab holds what the request makes of its contents. -/
theorem Keeps.perform (admitted : arena.Admits platform op) :
    ∃ reply next, arena.perform platform op = .ok (reply, next) ∧ op.Answered reply contents ∧
      Keeps platform start next (op.effect reply contents) := by
  have holds := keeps.holds
  have ranged := keeps.ranged
  have represents : arena.rv.lanes.Represents platform.usizeMax contents.attachments :=
    ranged.tableRange ▸ holds.lanes
  obtain ⟨front, back, isHeld⟩ := represents.holds
  cases op with
  | allocate sid role bytes align =>
    rcases holds.allocate sid role (Nat.pos_of_ne_zero admitted.1) admitted.2 with
      ⟨scope, isError⟩ | ⟨lease, rv, isOk, small, isGeneration, vacant, isNext, sameRange, _⟩
    · refine ⟨.allocated (.error scope), arena, ?_, trivial, keeps⟩
      rw [Arena.perform, isError]
      rfl
    · have isNumber : lease.generation.toNat = arena.issued.length + 1 := by
        rw [isGeneration, toNat_next small, keeps.counter]
      refine ⟨.allocated (.ok lease), ⟨rv, (lease.slot, lease.generation) :: arena.issued⟩, ?_,
        ⟨small, isGeneration, vacant⟩, isNext, ranged.congr sameRange,
        keeps.sameSlab.trans sameRange.sameSlab, ⟨isNumber, keeps.numbered⟩, isNumber⟩
      rw [Arena.perform, isOk]
      rfl
  | publish slot generation =>
    obtain ⟨_, hasSlot, isGeneration, isReserved⟩ := admitted
    obtain ⟨lease, isLease, rfl⟩ := keeps.hasSlot hasSlot
    obtain ⟨rv, isOk, isNext, sameRange⟩ := holds.publish isLease isGeneration isReserved
    have isModified : contents.leases.modify slot.toNat publishedLease =
        contents.leases.set slot.toNat (publishedLease lease) := by
      rw [List.modify_eq_set_getElem?, isLease]
      rfl
    refine ⟨.done, { arena with rv }, ?_, ⟨lease, isLease, isGeneration, isReserved⟩, ?_⟩
    · rw [Arena.perform, isOk]
      rfl
    · rw [ArenaOp.effect, isModified]
      exact keeps.withRange isNext sameRange rfl
  | sealMembership sid =>
    obtain ⟨slot, record, hasSlot, isMember⟩ := admitted
    obtain ⟨lease, isLease, rfl⟩ := keeps.hasSlot hasSlot
    obtain ⟨rv, isOk, isNext, sameRange⟩ :=
      holds.sealMembership ⟨lease, List.mem_of_getElem? isLease, isMember⟩
    refine ⟨.done, _, ?_, trivial, keeps.withRange isNext sameRange rfl⟩
    rw [Arena.perform, isOk]
    rfl
  | release slot generation =>
    obtain ⟨record, hasSlot, isGeneration, occupied⟩ := admitted
    obtain ⟨lease, isLease, rfl⟩ := keeps.hasSlot hasSlot
    obtain ⟨rv, isOk, isNext, isRanged, sameSlab, _⟩ :=
      holds.release ranged isLease occupied isGeneration
    refine ⟨.done, _, ?_, ⟨lease, isLease, isGeneration, occupied⟩,
      keeps.withRv isNext isRanged sameSlab rfl⟩
    rw [Arena.perform, isOk]
    rfl
  | abort slot generation =>
    obtain ⟨isLast, record, hasSlot, isGeneration, isReserved⟩ := admitted
    obtain ⟨lease, isLease, rfl⟩ := keeps.hasSlot hasSlot
    obtain ⟨isCounter, pos, numbered, counter⟩ := keeps.last isLast
    obtain ⟨rv, isOk, isNext, isRanged, sameSlab, _⟩ :=
      holds.abort ranged isLease isReserved isGeneration isCounter pos
    refine ⟨.done, ⟨rv, arena.issued.tail⟩, ?_,
      ⟨isCounter, pos, lease, isLease, isGeneration, isReserved⟩,
      isNext, isRanged, keeps.sameSlab.trans sameSlab, numbered, counter⟩
    rw [Arena.perform, isOk]
    rfl
  | growResolvers additional =>
    rcases holds.ensureResolvers (admitted _ holds.resolverEntries) with ⟨scope, isError⟩ |
      ⟨rv, isOk, isNext, sameRange⟩
    · refine ⟨.stored (.error scope), arena, ?_, trivial, keeps⟩
      rw [Arena.perform, isError]
      rfl
    · refine ⟨.stored (.ok ()), _, ?_, trivial, keeps.withRange isNext sameRange rfl⟩
      rw [Arena.perform, isOk]
      rfl
  | insertResolver registration resolver =>
    obtain ⟨result, rv, isOk, isNext, sameRange⟩ := holds.insertResolver registration resolver
    refine ⟨.stored result, _, ?_, trivial, keeps.withRange isNext sameRange rfl⟩
    rw [Arena.perform, isOk]
    rfl
  | growLanes laneSlots assocSlots =>
    rcases holds.ensureLanes ranged laneSlots assocSlots with ⟨scope, isError⟩ |
      ⟨rv, isOk, isNext, isRanged, sameSlab⟩
    · refine ⟨.stored (.error scope), arena, ?_, trivial, keeps⟩
      rw [Arena.perform, isError]
      rfl
    · refine ⟨.stored (.ok ()), _, ?_, trivial, keeps.withRv isNext isRanged sameSlab rfl⟩
      rw [Arena.perform, isOk]
      rfl
  | attach sid lane =>
    rcases represents.activate sid lane with ⟨lanes, isOk, _, isNext⟩ | ⟨error, isRefused⟩
    · obtain ⟨isChanged, sameRange⟩ := holds.changeEntries ranged
        (LaneStore.activateLaneAttachment_changes isHeld.laid isOk) isNext
      refine ⟨.attached (.ok ()), _, ?_, trivial, keeps.withRange isChanged sameRange rfl⟩
      rw [Arena.perform, isOk]
      rfl
    · refine ⟨.attached (.error error), arena, ?_, trivial, keeps⟩
      rw [Arena.perform, isRefused]
      rfl
  | releaseLane sid lane =>
    obtain ⟨lanes, isOk, _, isNext⟩ := represents.release admitted
    obtain ⟨isChanged, sameRange⟩ := holds.changeEntries ranged
      (LaneStore.releaseLane_changes isHeld.laid isOk) isNext
    refine ⟨.released (if 1 < contents.attachments.count sid lane.toNat then .stillHeld
      else .released), _, ?_, trivial, keeps.withRange isChanged sameRange rfl⟩
    rw [Arena.perform, isOk]
    rfl
  | poison sid cause =>
    obtain ⟨lanes, isOk, isNext⟩ := represents.poison sid cause
    obtain ⟨isChanged, sameRange⟩ := holds.changeEntries ranged
      (LaneStore.poisonSession_changes isHeld.laid isOk) isNext
    refine ⟨.poisoned ((contents.attachments.fault sid).getD cause), _, ?_, trivial,
      keeps.withRange isChanged sameRange rfl⟩
    rw [Arena.perform, isOk]
    rfl

/-- The contents over a history. -/
theorem Keeps.history {next : Arena} (history : History (machine platform) arena visits next) :
    Keeps platform start next (effects ArenaOp.effect contents visits) := by
  refine history.refines keeps fun state abstract op reply after isKept admitted isOk => ?_
  obtain ⟨otherReply, other, isOther, _, kept⟩ := isKept.perform admitted
  cases isOk.symm.trans isOther
  exact kept

end

/-- An admitted request of a history from an empty slab returns. -/
theorem returns [DecidableEq Key] {memory : Memory} (nonnull : 0 < slabPtr)
    (fits : slabPtr + slabLen ≤ platform.usizeMax)
    (history : History (machine platform) (new memory slabPtr slabLen) visits arena)
    (admitted : arena.Admits platform op) :
    ∃ reply next, arena.perform platform op = .ok (reply, next) := by
  obtain ⟨reply, next, isOk, _⟩ :=
    ((new_keeps platform memory nonnull fits).history history).perform admitted
  exact ⟨reply, next, isOk⟩

/-! ### What callers see -/

/-- The places of the tables and of the leases in a slab. The tables lie apart and end at the image
frontier or before it, the leases lie apart behind it, and all are aligned and inside the slab. -/
structure Placed (platform : Platform Key Ref) (rv : Rendezvous)
    (leases : List (EndpointLeaseSlot × Nat)) : Prop where
  frontier : rv.imageFrontier ≤ rv.slabLen
  sidecars : ∀ resident ∈ rv.liveSidecars platform, resident.storage ≠ .empty →
    rv.slabPtr ≤ resident.storage.ptr ∧
      resident.storage.ptr + resident.storage.bytes ≤ rv.slabPtr + rv.imageFrontier ∧
      resident.storage.ptr % resident.align = 0
  sidecarsApart : (rv.liveSidecars platform).Pairwise fun first second =>
    first.storage.ptr + first.storage.bytes ≤ second.storage.ptr ∨
      second.storage.ptr + second.storage.bytes ≤ first.storage.ptr
  occupied : ∀ lease ∈ leases, lease.1.isOccupied = true →
    rv.imageFrontier ≤ lease.1.offset.toNat ∧ 0 < lease.1.len.toNat ∧
      lease.1.offset.toNat + lease.1.len.toNat ≤ rv.slabLen ∧
      (rv.slabPtr + lease.1.offset.toNat) % lease.2 = 0
  leasesApart : leases.Pairwise fun first second =>
    first.1.isOccupied = true → second.1.isOccupied = true →
      first.1.offset.toNat + first.1.len.toNat ≤ second.1.offset.toNat ∨
        second.1.offset.toNat + second.1.len.toNat ≤ first.1.offset.toNat

theorem placed_of_holds (holds : Holds platform rv contents) :
    Placed platform rv contents.leases where
  frontier := holds.resting.frontier
  sidecars := fun resident mem live =>
    have isLive : isLive resident = true := decide_eq_true live
    ⟨holds.resting.low resident mem isLive, holds.resting.high resident mem isLive,
      holds.resting.aligned resident mem isLive⟩
  sidecarsApart := holds.resting.apart
  occupied := fun lease mem occupied => by
    have isFit := holds.fits lease mem occupied
    have filled := isFit.filled
    unfold leaseStart leaseEnd at filled
    exact ⟨isFit.low, by omega, isFit.high, isFit.aligned⟩
  leasesApart := holds.apart

variable [DecidableEq Key]

/-- The slab over whole histories. Every admitted request returns. In every state the tables and
the leases have places of their own, and the slots of the leases, the resolvers and the attachments
are what the requests so far have made of them. -/
theorem slab_keeps_contents {memory : Memory} {slabPtr slabLen : Nat} (nonnull : 0 < slabPtr)
    (fits : slabPtr + slabLen ≤ platform.usizeMax)
    {visits : List (Visit Arena (ArenaOp Key Ref) ArenaReply)}
    (history : History (machine platform) (new memory slabPtr slabLen) visits arena) :
    (∀ op, arena.Admits platform op → ∃ reply next, arena.perform platform op = .ok (reply, next)) ∧
    arena.rv.slabPtr = slabPtr ∧ arena.rv.slabLen = slabLen ∧
    Placed platform arena.rv (effects ArenaOp.effect Contents.empty visits).leases ∧
    arena.rv.endpointLeaseSlots platform =
      .ok ((effects ArenaOp.effect Contents.empty visits).leases.map Prod.fst) ∧
    arena.rv.resolverEntries platform =
      .ok (effects ArenaOp.effect Contents.empty visits).resolvers ∧
    arena.rv.lanes.IsMap (effects ArenaOp.effect (Contents.empty : Contents Key Ref)
      visits).attachments ∧
    ∀ sid, arena.rv.lanes.sessionFault sid =
      .ok ((effects ArenaOp.effect (Contents.empty : Contents Key Ref) visits).attachments.fault
        sid) := by
  have keeps := (new_keeps platform memory nonnull fits).history history
  generalize effects ArenaOp.effect Contents.empty visits = contents at keeps ⊢
  have represents : arena.rv.lanes.Represents platform.usizeMax contents.attachments :=
    keeps.ranged.tableRange ▸ keeps.holds.lanes
  exact ⟨fun op => returns nonnull fits history, keeps.sameSlab.1, keeps.sameSlab.2,
    placed_of_holds keeps.holds, keeps.holds.slots, keeps.holds.resolverEntries, represents.isMap,
    represents.sessionFault_eq⟩

/-! ### Scripts of requests -/

/-- A test of the record in a slot. -/
def testSlot (platform : Platform Key Ref) (arena : Arena) (slot : UInt16)
    (test : EndpointLeaseSlot → Prop) [DecidablePred test] : Bool :=
  match arena.rv.endpointLeaseSlotByIndex platform slot.toNat with
  | .ok (some record) => test record
  | _ => false

omit [DecidableEq Key] in
theorem of_testSlot {slot : UInt16} {test : EndpointLeaseSlot → Prop} [DecidablePred test]
    (passes : arena.testSlot platform slot test = true) :
    ∃ record, arena.HasSlot platform slot record ∧ test record := by
  unfold testSlot at passes
  split at passes
  · rename_i record isRecord
    exact ⟨record, isRecord, of_decide_eq_true passes⟩
  · cases passes

/-- A test for requests that the slab admits. A session is sealed by its lease in the first slot. -/
def permits (platform : Platform Key Ref) (arena : Arena) : ArenaOp Key Ref → Bool
  | .allocate _ _ bytes align => bytes ≠ 0 ∧ Layout.isPowerOfTwo align = true
  | .publish slot generation => arena.testSlot platform slot fun record =>
      record.generation = generation ∧ record.state = .reserved
  | .sealMembership sid => arena.testSlot platform 0 fun record =>
      record.sid = sid ∧ record.isPublished = true
  | .release slot generation => arena.testSlot platform slot fun record =>
      record.generation = generation ∧ record.isOccupied = true
  | .abort slot generation => arena.issued.head? = some (slot, generation) ∧
      arena.testSlot platform slot (fun record =>
        record.generation = generation ∧ record.state = .reserved) = true
  | .growResolvers additional => (arena.rv.resolverEntries platform).toOption.any fun entries =>
      (entries.countP Option.isSome + additional) * platform.resolvers.codec.size ≤
        platform.usizeMax
  | .releaseLane sid lane => arena.rv.lanes.assoc.hasEntry arena.rv.lanes.memory lane sid
  | .insertResolver .. | .growLanes .. | .attach .. | .poison .. => true

omit [DecidableEq Key] in
theorem admits_of_permits (arena : Arena) (op : ArenaOp Key Ref)
    (passes : arena.permits platform op = true) : arena.Admits platform op := by
  cases op with
  | allocate =>
    obtain ⟨filled, isPower⟩ := of_decide_eq_true passes
    exact ⟨filled, isPower⟩
  | publish => exact of_testSlot passes
  | sealMembership => exact ⟨0, of_testSlot passes⟩
  | release => exact of_testSlot passes
  | abort =>
    obtain ⟨isLast, passes⟩ := of_decide_eq_true passes
    exact ⟨isLast, of_testSlot passes⟩
  | growResolvers =>
    intro entries isEntries
    rw [permits, isEntries] at passes
    exact of_decide_eq_true passes
  | releaseLane => exact passes
  | _ => trivial

/-- Play a script of requests on an empty slab of 256 bytes. -/
def playNarrow (ops : List (ArenaOp UInt32 UInt32)) :
    Run (List (Visit Arena (ArenaOp UInt32 UInt32) ArenaReply) × Arena) :=
  play (perform Platform.narrow) (permits Platform.narrow) (new (fun _ => 0) 4096 256) ops

/-- One lease is published while the table of resolvers grows, and the next one is aborted. -/
theorem slab_keeps_contents_published :
    ∃ visits arena, History (machine Platform.narrow) (new (fun _ => 0) 4096 256) visits arena ∧
      visits.map Visit.op = [.allocate 7 0 64 16, .growResolvers 1, .publish 0 1,
        .allocate 7 1 32 8, .abort 1 2] ∧
      Placed Platform.narrow arena.rv (effects ArenaOp.effect Contents.empty visits).leases ∧
      arena.rv.endpointLeaseSlots Platform.narrow = .ok [⟨1, 7, 192, 64, 0, .published⟩] := by
  have run : (do
      let (_, arena) ← playNarrow [.allocate 7 0 64 16, .growResolvers 1, .publish 0 1,
        .allocate 7 1 32 8, .abort 1 2]
      arena.rv.endpointLeaseSlots Platform.narrow) = .ok [⟨1, 7, 192, 64, 0, .published⟩] := by
    decide +kernel
  obtain ⟨⟨visits, arena⟩, isPlayed, isSlots⟩ := Run.of_bind run
  obtain ⟨history, isOps⟩ := History.of_play (machine _) admits_of_permits isPlayed
  exact ⟨visits, arena, history, isOps,
    (slab_keeps_contents (by decide) (by decide) history).2.2.2.1, isSlots⟩

/-- Two leases are allocated and the second one is published. The first one is the last that is
still reserved, but its generation is not the counter's: its abort fails. -/
theorem abort_behind_published_fails :
    ∃ visits arena, History (machine Platform.narrow) (new (fun _ => 0) 4096 256) visits arena ∧
      visits.map Visit.op = [.allocate 7 0 64 16, .allocate 7 1 64 16, .publish 1 2] ∧
      arena.rv.endpointLeaseSlots Platform.narrow =
        .ok [⟨1, 7, 192, 64, 0, .reserved⟩, ⟨2, 7, 128, 64, 1, .published⟩] ∧
      arena.perform Platform.narrow (.abort 0 1) = .error .invariant := by
  have run : (do
      let (_, arena) ← playNarrow [.allocate 7 0 64 16, .allocate 7 1 64 16, .publish 1 2]
      return (← arena.rv.endpointLeaseSlots Platform.narrow,
        (arena.perform Platform.narrow (.abort 0 1)).map fun _ => ())) =
        .ok ([⟨1, 7, 192, 64, 0, .reserved⟩, ⟨2, 7, 128, 64, 1, .published⟩],
          .error .invariant) := by
    decide +kernel
  obtain ⟨⟨visits, arena⟩, isPlayed, run⟩ := Run.of_bind run
  obtain ⟨slots, isSlots, run⟩ := Run.of_bind run
  obtain ⟨rfl, failed⟩ := Prod.mk.inj (Except.ok.inj run)
  obtain ⟨history, isOps⟩ := History.of_play (machine _) admits_of_permits isPlayed
  refine ⟨visits, arena, history, isOps, isSlots, ?_⟩
  cases isAborted : arena.perform Platform.narrow (.abort 0 1) with
  | error stop =>
    rw [isAborted] at failed
    exact congrArg Except.error (Except.error.inj failed)
  | ok result =>
    rw [isAborted] at failed
    cases failed

end Arena

end Hibana
