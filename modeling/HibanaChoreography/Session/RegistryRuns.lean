/-
This file is about the leases of sessions in a registry: all leases of a session are in
one rendezvous, with one program and different roles.

Requests to a slab only take leases away and change their states, so only an allocation
could break this. The scan before an allocation finds the one program of the session,
and when it comes to its end it has seen every lease of the session.
-/

import HibanaChoreography.Session.Registry
import Mathlib.Data.List.Nodup

namespace Hibana

open Outcome ByteMemory Machines Rendezvous List

variable {Key Ref : Type} {platform : Platform Key Ref} {layout : ActorLayout}

/-! ### Leases behind a request to a slab -/

/-- A lease that comes from another one: all but its state is the same, and it is sealed if it was
or if it was published and its session is the one that is sealed. -/
structure Lasts (seals : Option UInt32) (old slot : EndpointLeaseSlot) : Prop where
  same : slot = { old with state := slot.state }
  sealed_iff : slot.state = .membershipSealed ↔
    old.state = .membershipSealed ∨ seals = some old.sid ∧ old.isPublished = true

theorem Lasts.refl (slot : EndpointLeaseSlot) : Lasts none slot slot :=
  ⟨rfl, by simp⟩

variable {old slot : EndpointLeaseSlot}

theorem Lasts.sid {seals : Option UInt32} (lasts : Lasts seals old slot) : slot.sid = old.sid := by
  rw [lasts.same]

theorem Lasts.role {seals : Option UInt32} (lasts : Lasts seals old slot) :
    slot.role = old.role := by
  rw [lasts.same]

theorem Lasts.offset {seals : Option UInt32} (lasts : Lasts seals old slot) :
    slot.offset = old.offset := by
  rw [lasts.same]

theorem Lasts.len {seals : Option UInt32} (lasts : Lasts seals old slot) : slot.len = old.len := by
  rw [lasts.same]

theorem Lasts.generation {seals : Option UInt32} (lasts : Lasts seals old slot) :
    slot.generation = old.generation := by
  rw [lasts.same]

/-- The session that a request seals. -/
def ArenaOp.seals : ArenaOp Key Ref → Option UInt32
  | .sealMembership sid => some sid
  | _ => none

/-- A request other than an allocation takes leases away or changes their states. -/
theorem lasts_effect [DecidableEq Key] {op : ArenaOp Key Ref} {reply : ArenaReply}
    {contents : Contents Key Ref} (other : ¬ Registry.IsAllocation op)
    (answered : op.Answered reply contents) {index : Nat} {lease : EndpointLeaseSlot × Nat}
    (occupies : OccupiesSlot (op.effect reply contents).leases index lease) :
    ∃ old, OccupiesSlot contents.leases index old ∧ Lasts op.seals old.1 lease.1 := by
  cases op with
  | allocate => exact absurd trivial other
  | publish slot generation =>
    obtain ⟨found, isFound, _, isReserved⟩ := answered
    rcases occupies_published isFound occupies with ⟨rfl, rfl⟩ | ⟨_, wasThere⟩
    · refine ⟨found, ⟨isFound, ?_⟩, rfl, ?_⟩
      · rw [EndpointLeaseSlot.isOccupied, isReserved]
        rfl
      · rw [isReserved]
        simp [publishedLease, ArenaOp.seals]
    · exact ⟨lease, wasThere, .refl _⟩
  | sealMembership sid =>
    obtain ⟨old, wasThere, rfl⟩ := occupies_sealed occupies
    refine ⟨old, wasThere, ?_⟩
    unfold sealedLease
    split
    · rename_i isMember
      exact ⟨rfl, iff_of_true rfl (.inr ⟨congrArg some isMember.1.symm, isMember.2⟩)⟩
    · rename_i notMember
      refine ⟨rfl, .inl, ?_⟩
      rintro (isSealed | ⟨isSession, isPublished⟩)
      · exact isSealed
      · exact absurd ⟨(Option.some.inj isSession).symm, isPublished⟩ notMember
  | release slot generation => exact ⟨lease, (occupies_released occupies).2, .refl _⟩
  | abort slot generation => exact ⟨lease, (occupies_released occupies).2, .refl _⟩
  | growResolvers additional =>
    rcases reply with _ | ⟨_ | _⟩ | _ | _ | _ | _
    all_goals exact ⟨lease, occupies, .refl _⟩
  | attach sid lane =>
    rcases reply with _ | _ | ⟨_ | _⟩ | _ | _ | _
    all_goals exact ⟨lease, occupies, .refl _⟩
  | insertResolver _ _ | growLanes _ _ | releaseLane _ _ | poison _ _ =>
    exact ⟨lease, occupies, .refl _⟩

namespace Registry

variable {entry : Registered} {index : Nat} {slot : EndpointLeaseSlot} {registry : List Registered}
  {id : UInt16}

theorem hasLease_iff {start : Rendezvous} {contents : Contents Key Ref}
    (keeps : Arena.Keeps platform start entry.arena contents) :
    HasLease platform entry index slot ↔
      ∃ lease, OccupiesSlot contents.leases index lease ∧ lease.1 = slot := by
  constructor
  · rintro ⟨slots, isSlots, isSlot, occupied⟩
    cases keeps.holds.slots.symm.trans isSlots
    rw [getElem?_map] at isSlot
    obtain ⟨lease, isLease, rfl⟩ := Option.map_eq_some_iff.mp isSlot
    exact ⟨lease, ⟨isLease, occupied⟩, rfl⟩
  · rintro ⟨lease, ⟨isLease, occupied⟩, rfl⟩
    refine ⟨_, keeps.holds.slots, ?_, occupied⟩
    rw [getElem?_map, isLease]
    rfl

/-! ### What holds in every state -/

/-- The actor of a lease is in place, with its program where it is read. -/
structure ActorFits (layout : ActorLayout) (entry : Registered) (slot : EndpointLeaseSlot) :
    Prop where
  room : layout.programOffset + layout.pointerBytes ≤ slot.len.toNat
  aligned : (entry.arena.rv.slabPtr + slot.offset.toNat + layout.programOffset) %
    layout.pointerAlign = 0
  program : (entry.actors slot.offset.toNat).isSome = true

/-- The leases of a session are in one rendezvous, have one program and different roles. -/
structure SessionsApart (platform : Platform Key Ref) (registry : List Registered) : Prop where
  together : ∀ entry ∈ registry, ∀ other ∈ registry, ∀ index slot second found,
    HasLease platform entry index slot → HasLease platform other second found →
    slot.sid = found.sid → entry.id = other.id
  program : ∀ entry ∈ registry, ∀ index slot second found,
    HasLease platform entry index slot → HasLease platform entry second found →
    slot.sid = found.sid → ∃ program bound, entry.actors slot.offset.toNat = some program ∧
      entry.actors found.offset.toNat = some bound ∧ program.sameImage bound = true
  roles : ∀ entry ∈ registry, ∀ index slot second found,
    HasLease platform entry index slot → HasLease platform entry second found →
    slot.sid = found.sid → index ≠ second → slot.role ≠ found.role

structure Holds (platform : Platform Key Ref) (layout : ActorLayout) (registry : List Registered) :
    Prop where
  ids : (registry.map Registered.id).Nodup
  kept : ∀ entry ∈ registry, ∃ start contents,
    Arena.Keeps platform start entry.arena (contents : Contents Key Ref)
  fits : ∀ entry ∈ registry, ∀ index slot, HasLease platform entry index slot →
    ActorFits layout entry slot
  apart : SessionsApart platform registry

theorem Holds.eq_of_id (holds : Holds platform layout registry) {other : Registered}
    (isEntry : entry ∈ registry) (isOther : other ∈ registry) (same : entry.id = other.id) :
    entry = other :=
  inj_on_of_nodup_map holds.ids isEntry isOther same

theorem holds_of_fresh [DecidableEq Key] (fresh : Fresh platform registry) :
    Holds platform layout registry := by
  have kept : ∀ entry ∈ registry, ∃ start,
      Arena.Keeps platform start entry.arena (Contents.empty : Contents Key Ref) := by
    intro entry mem
    obtain ⟨memory, slabPtr, slabLen, nonnull, fits, isNew⟩ := fresh.empty entry mem
    exact ⟨_, isNew ▸ Arena.new_keeps platform memory nonnull fits⟩
  have noLease : ∀ entry ∈ registry, ∀ index slot, ¬ HasLease platform entry index slot := by
    intro entry mem index slot hasLease
    obtain ⟨start, keeps⟩ := kept entry mem
    obtain ⟨lease, ⟨isLease, _⟩, _⟩ := (hasLease_iff keeps).mp hasLease
    cases isLease
  refine ⟨fresh.ids, fun entry mem => ?_, fun entry mem index slot hasLease =>
    absurd hasLease (noLease entry mem index slot), ⟨?_, ?_, ?_⟩⟩
  · obtain ⟨start, keeps⟩ := kept entry mem
    exact ⟨start, _, keeps⟩
  · intro entry mem _ _ index slot _ _ hasLease
    exact absurd hasLease (noLease entry mem index slot)
  · intro entry mem index slot _ _ hasLease
    exact absurd hasLease (noLease entry mem index slot)
  · intro entry mem index slot _ _ hasLease
    exact absurd hasLease (noLease entry mem index slot)

/-! ### Requests that give no lease -/

/-- A rendezvous behind a request that gives no lease. -/
structure Descends (platform : Platform Key Ref) (seals : Option UInt32) (entry next : Registered) :
    Prop where
  id : next.id = entry.id
  slabPtr : next.arena.rv.slabPtr = entry.arena.rv.slabPtr
  actors : next.actors = entry.actors
  kept : ∃ start contents, Arena.Keeps platform start next.arena (contents : Contents Key Ref)
  leases : ∀ index slot, HasLease platform next index slot →
    ∃ old, HasLease platform entry index old ∧ Lasts seals old slot

theorem Descends.refl
    (kept : ∃ start contents,
      Arena.Keeps platform start entry.arena (contents : Contents Key Ref)) :
    Descends platform none entry entry :=
  ⟨rfl, rfl, rfl, kept, fun _ slot hasLease => ⟨slot, hasLease, .refl slot⟩⟩

/-- A registry behind a request that gives no lease and may seal a session in one rendezvous. -/
def AllDescend (platform : Platform Key Ref) (id : UInt16) (seals : Option UInt32)
    (registry next : List Registered) : Prop :=
  List.Forall₂ (fun entry after =>
    Descends platform (if entry.id = id then seals else none) entry after) registry next

variable {next : List Registered}

theorem AllDescend.origin {seals : Option UInt32}
    (descend : AllDescend platform id seals registry next) {after : Registered}
    (mem : after ∈ next) : ∃ entry ∈ registry,
      Descends platform (if entry.id = id then seals else none) entry after := by
  obtain ⟨position, isAfter⟩ := mem_iff_getElem?.mp mem
  obtain ⟨inside, rfl⟩ := List.getElem?_eq_some_iff.mp isAfter
  have inRegistry : position < registry.length := descend.length_eq ▸ inside
  exact ⟨registry[position], getElem_mem _, descend.get inRegistry inside⟩

theorem Holds.descend {seals : Option UInt32} (holds : Holds platform layout registry)
    (descend : AllDescend platform id seals registry next) : Holds platform layout next := by
  have sameIds : next.map Registered.id = registry.map Registered.id := by
    clear holds
    induction descend with
    | nil => rfl
    | cons isHead _ hyp => rw [map_cons, map_cons, isHead.id, hyp]
  refine ⟨sameIds ▸ holds.ids, fun after mem => ?_, fun after mem index slot hasLease => ?_,
    ⟨?_, ?_, ?_⟩⟩
  · obtain ⟨entry, _, isNext⟩ := descend.origin mem
    exact isNext.kept
  · obtain ⟨entry, isEntry, isNext⟩ := descend.origin mem
    obtain ⟨old, hadLease, lasts⟩ := isNext.leases index slot hasLease
    have fits := holds.fits entry isEntry index old hadLease
    exact ⟨lasts.len ▸ fits.room, by rw [isNext.slabPtr, lasts.offset]; exact fits.aligned,
      by rw [isNext.actors, lasts.offset]; exact fits.program⟩
  · intro after mem other isOther index slot second found hasLease otherLease same
    obtain ⟨entry, isEntry, isNext⟩ := descend.origin mem
    obtain ⟨before, isBefore, otherNext⟩ := descend.origin isOther
    obtain ⟨old, hadLease, lasts⟩ := isNext.leases index slot hasLease
    obtain ⟨oldFound, hadFound, foundLasts⟩ := otherNext.leases second found otherLease
    rw [isNext.id, otherNext.id]
    exact holds.apart.together entry isEntry before isBefore index old second oldFound hadLease
      hadFound (lasts.sid.symm.trans (same.trans foundLasts.sid))
  · intro after mem index slot second found hasLease otherLease same
    obtain ⟨entry, isEntry, isNext⟩ := descend.origin mem
    obtain ⟨old, hadLease, lasts⟩ := isNext.leases index slot hasLease
    obtain ⟨oldFound, hadFound, foundLasts⟩ := isNext.leases second found otherLease
    rw [isNext.actors, lasts.offset, foundLasts.offset]
    exact holds.apart.program entry isEntry index old second oldFound hadLease hadFound
      (lasts.sid.symm.trans (same.trans foundLasts.sid))
  · intro after mem index slot second found hasLease otherLease same ne
    obtain ⟨entry, isEntry, isNext⟩ := descend.origin mem
    obtain ⟨old, hadLease, lasts⟩ := isNext.leases index slot hasLease
    obtain ⟨oldFound, hadFound, foundLasts⟩ := isNext.leases second found otherLease
    rw [lasts.role, foundLasts.role]
    exact holds.apart.roles entry isEntry index old second oldFound hadLease hadFound
      (lasts.sid.symm.trans (same.trans foundLasts.sid)) ne

theorem Holds.allDescend_set (holds : Holds platform layout registry) {seals : Option UInt32}
    {next : Registered} (isEntry : registry[index]? = some entry)
    (isNext : Descends platform seals entry next) :
    AllDescend platform entry.id seals registry (registry.set index next) := by
  obtain ⟨inside, rfl⟩ := List.getElem?_eq_some_iff.mp isEntry
  refine forall₂_iff_get.mpr ⟨(length_set ..).symm, fun other isOther _ => ?_⟩
  simp only [get_eq_getElem]
  rcases eq_or_ne index other with rfl | differs
  · rw [getElem_set_self, if_pos rfl]
    exact isNext
  · rw [getElem_set_ne differs, if_neg]
    · exact .refl (holds.kept _ (getElem_mem _))
    · intro same
      refine differs ((getElem?_inj (by rwa [length_map]) holds.ids).mp ?_)
      rw [getElem?_map, getElem?_map, getElem?_eq_getElem inside,
        getElem?_eq_getElem isOther, Option.map_some, Option.map_some, same]

theorem position_eq (ids : (registry.map Registered.id).Nodup) (isEntry : entry ∈ registry) :
    ∃ index, position registry entry.id = some index ∧ registry[index]? = some entry := by
  have isSome : (position registry entry.id).isSome = true :=
    findIdx?_isSome.trans (any_eq_true.mpr ⟨entry, isEntry, decide_eq_true rfl⟩)
  obtain ⟨index, isPosition⟩ := Option.isSome_iff_exists.mp isSome
  obtain ⟨inside, isId, _⟩ := findIdx?_eq_some_iff_getElem.mp isPosition
  refine ⟨index, isPosition, ?_⟩
  rw [getElem?_eq_getElem inside, inj_on_of_nodup_map ids (getElem_mem inside) isEntry
    (of_decide_eq_true isId)]

/-- A request to the slab of one rendezvous. -/
theorem Holds.within [DecidableEq Key] (holds : Holds platform layout registry)
    {op : ArenaOp Key Ref} (admitted : Admits platform layout registry (.within id op)) :
    ∃ reply next, perform platform layout registry (.within id op) = .ok (reply, next) ∧
      AllDescend platform id op.seals registry next := by
  obtain ⟨other, entry, isEntry, rfl, isAdmitted⟩ := admitted
  obtain ⟨index, isPosition, isFound⟩ := position_eq holds.ids isEntry
  obtain ⟨start, contents, keeps⟩ := holds.kept entry isEntry
  obtain ⟨reply, arena, isOk, answered, isKept⟩ := keeps.perform isAdmitted
  refine ⟨.within reply, registry.set index { entry with arena }, ?_,
    holds.allDescend_set isFound ⟨rfl, ?_, rfl, ⟨start, _, isKept⟩, fun slot record hasLease => ?_⟩⟩
  · simp only [perform, isPosition, isFound, isOk]
    rfl
  · exact isKept.sameSlab.1.trans keeps.sameSlab.1.symm
  · obtain ⟨lease, occupies, rfl⟩ := (hasLease_iff
      (isKept : Arena.Keeps platform start ({ entry with arena } : Registered).arena _)).mp hasLease
    obtain ⟨old, wasThere, lasts⟩ := lasts_effect other answered occupies
    exact ⟨old.1, (hasLease_iff keeps).mpr ⟨old, wasThere, rfl⟩, lasts⟩

theorem Holds.setBusy (holds : Holds platform layout registry) (id : UInt16) (busy : Bool) :
    AllDescend platform id none registry
      (registry.map fun entry => if entry.id = id then { entry with busy } else entry) := by
  refine forall₂_map_right_iff.mpr (forall₂_same.mpr fun entry mem => ?_)
  rw [ite_self]
  have same := Descends.refl (holds.kept entry mem)
  split
  · exact ⟨rfl, rfl, rfl, same.kept, same.leases⟩
  · exact same

/-! ### The program of a session -/

/-- What the scan reads of a lease of the session: it is published, in the slab, and its actor has
the program. -/
structure Reads (platform : Platform Key Ref) (layout : ActorLayout) (entry : Registered)
    (program : Option CompiledProgram) (slot : EndpointLeaseSlot) : Prop where
  published : slot.isPublished = true
  filled : slot.len ≠ 0
  high : slot.offset.toNat + slot.len.toNat ≤ entry.arena.rv.slabLen
  space : entry.arena.rv.slabLen ≤ platform.usizeMax
  fits : ActorFits layout entry slot
  program : entry.actors slot.offset.toNat = program

variable {sid : UInt32}

theorem Reads.bindProgram {program bound : Option CompiledProgram}
    (reads : Reads platform layout entry program slot) (occupied : slot.isOccupied = true)
    (isSession : slot.sid = sid) (isBound : bound = none ∨ bound = program) :
    entry.bindProgram platform layout sid bound slot = .ok program := by
  have isStop : Layout.add platform.usizeMax slot.offset.toNat slot.len.toNat =
      .ok (slot.offset.toNat + slot.len.toNat) := by
    rw [Layout.add, Layout.checkedAdd, if_pos (reads.high.trans reads.space)]
  obtain ⟨found, isFound⟩ := Option.isSome_iff_exists.mp reads.fits.program
  have isRead : entry.residentProgramRef layout slot.offset.toNat slot.len.toNat = .ok found := by
    rw [Registered.residentProgramRef, if_neg (Nat.not_lt.mpr reads.fits.room),
      if_neg (not_not_intro reads.fits.aligned), isFound]
  have isProgram : program = some found := reads.program.symm.trans isFound
  rw [Registered.bindProgram, if_neg, if_neg (not_not_intro reads.published), isStop, Run.bind_ok,
    if_neg, isRead, Run.bind_ok]
  · rcases isBound with rfl | rfl
    · rw [isProgram]
      rfl
    · rw [isProgram]
      dsimp only
      rw [if_pos (CompiledProgram.sameImage_iff.mpr rfl)]
      rfl
  · rintro (isEmpty | exceeds)
    · exact reads.filled isEmpty
    · exact absurd reads.high (Nat.not_le.mpr exceeds)
  · rintro (vacant | foreign)
    · exact vacant occupied
    · exact foreign isSession

theorem foldlM_bindProgram {program : Option CompiledProgram} (slots : List EndpointLeaseSlot)
    (each : ∀ slot ∈ slots, slot.isOccupied = true → slot.sid = sid →
      Reads platform layout entry program slot) {bound : Option CompiledProgram}
    (isBound : bound = none ∨ bound = program) :
    ∃ result, slots.foldlM (entry.bindProgram platform layout sid) bound = .ok result ∧
      (result = none ∨ result = program) ∧
      (result = none → bound = none ∧ ∀ slot ∈ slots, slot.isOccupied = true → slot.sid ≠ sid) := by
  induction slots generalizing bound with
  | nil => exact ⟨bound, rfl, isBound, fun isNone => ⟨isNone, nofun⟩⟩
  | cons slot rest hyp =>
    rw [foldlM_cons]
    by_cases isLease : slot.isOccupied = true ∧ slot.sid = sid
    · have reads := each slot mem_cons_self isLease.1 isLease.2
      rw [reads.bindProgram isLease.1 isLease.2 isBound, Run.bind_ok]
      obtain ⟨result, isResult, isProgram, isNone⟩ := hyp
        (fun other mem => each other (mem_cons_of_mem _ mem)) (.inr rfl)
      refine ⟨result, isResult, isProgram, fun none => ?_⟩
      have noProgram := (isNone none).1
      rw [← reads.program] at noProgram
      have isSome := reads.fits.program
      rw [noProgram] at isSome
      cases isSome
    · have isSkipped : entry.bindProgram platform layout sid bound slot = .ok bound := by
        rw [Registered.bindProgram, if_pos]
        · rfl
        · by_contra both
          push Not at both
          exact isLease both
      rw [isSkipped, Run.bind_ok]
      obtain ⟨result, isResult, isProgram, isNone⟩ := hyp
        (fun other mem => each other (mem_cons_of_mem _ mem)) isBound
      refine ⟨result, isResult, isProgram, fun none => ⟨(isNone none).1, ?_⟩⟩
      refine forall_mem_cons.mpr ⟨fun occupied isSession => isLease ⟨occupied, isSession⟩, ?_⟩
      exact (isNone none).2

/-- What a rendezvous knows about a session. -/
structure Knows (platform : Platform Key Ref) (layout : ActorLayout) (entry : Registered)
    (sid : UInt32) (slots : List EndpointLeaseSlot) (bound : Option CompiledProgram) : Prop where
  slots : entry.arena.rv.endpointLeaseSlots platform = .ok slots
  program : entry.endpointSessionProgram platform layout sid = .ok bound
  absent : bound = none → ∀ index slot, HasLease platform entry index slot → slot.sid ≠ sid
  present : ∀ program, bound = some program → ∀ index slot, HasLease platform entry index slot →
    slot.sid = sid → entry.actors slot.offset.toNat = some program

/-- The program of a session is found while none of its leases is reserved. -/
theorem Holds.knows (holds : Holds platform layout registry) (isEntry : entry ∈ registry)
    (settled : ∀ index slot, HasLease platform entry index slot → slot.sid = sid →
      slot.state ≠ .reserved) : ∃ slots bound, Knows platform layout entry sid slots bound := by
  obtain ⟨start, contents, keeps⟩ := holds.kept entry isEntry
  have isSlots := keeps.holds.slots
  have isLease : ∀ slot ∈ contents.leases.map Prod.fst, slot.isOccupied = true →
      ∃ index, HasLease platform entry index slot := by
    intro slot mem occupied
    obtain ⟨index, isSlot⟩ := mem_iff_getElem?.mp mem
    exact ⟨index, _, isSlots, isSlot, occupied⟩
  -- All leases of the session have the program of one of them.
  have common : ∃ program, ∀ slot ∈ contents.leases.map Prod.fst, slot.isOccupied = true →
      slot.sid = sid → entry.actors slot.offset.toNat = program := by
    by_cases hasOne : ∃ index slot, HasLease platform entry index slot ∧ slot.sid = sid
    · obtain ⟨first, found, hasLease, isSession⟩ := hasOne
      refine ⟨entry.actors found.offset.toNat, fun slot mem occupied sameSession => ?_⟩
      obtain ⟨index, isThere⟩ := isLease slot mem occupied
      obtain ⟨program, bound, isProgram, isBound, same⟩ := holds.apart.program entry isEntry index
        slot first found isThere hasLease (sameSession.trans isSession.symm)
      rw [isProgram, isBound, CompiledProgram.sameImage_iff.mp same]
    · refine ⟨none, fun slot mem occupied sameSession => ?_⟩
      obtain ⟨index, isThere⟩ := isLease slot mem occupied
      exact absurd ⟨index, slot, isThere, sameSession⟩ hasOne
  obtain ⟨program, isProgram⟩ := common
  have reads : ∀ slot ∈ contents.leases.map Prod.fst, slot.isOccupied = true → slot.sid = sid →
      Reads platform layout entry program slot := by
    intro slot mem occupied isSession
    obtain ⟨index, isThere⟩ := isLease slot mem occupied
    obtain ⟨lease, isMember, rfl⟩ := mem_map.mp mem
    have isFit := keeps.holds.fits lease isMember occupied
    have filled := isFit.filled
    unfold leaseStart leaseEnd at filled
    refine ⟨?_, fun isEmpty => ?_, isFit.high, ?_, holds.fits entry isEntry index _ isThere,
      isProgram _ mem occupied isSession⟩
    · have notReserved := settled index _ isThere isSession
      unfold EndpointLeaseSlot.isOccupied at occupied
      unfold EndpointLeaseSlot.isPublished
      cases isState : lease.1.state with
      | vacant =>
        rw [isState] at occupied
        cases occupied
      | reserved => exact absurd isState notReserved
      | published | membershipSealed => rfl
    · rw [isEmpty] at filled
      exact absurd filled (Nat.lt_irrefl _)
    · have space := keeps.holds.resting.space
      exact Nat.le_trans (Nat.le_add_left _ _) space.fits
  obtain ⟨bound, isBound, isFound, isNone⟩ := foldlM_bindProgram _ reads (.inl rfl)
  refine ⟨_, bound, isSlots, ?_, fun none index slot hasLease => ?_,
    fun found isSome index slot hasLease isSession => ?_⟩
  · rw [Registered.endpointSessionProgram, isSlots, Run.bind_ok, isBound]
  · obtain ⟨slots, isOther, isSlot, occupied⟩ := hasLease
    cases isSlots.symm.trans isOther
    exact (isNone none).2 slot (mem_of_getElem? isSlot) occupied
  · obtain ⟨slots, isOther, isSlot, occupied⟩ := hasLease
    cases isSlots.symm.trans isOther
    rw [isProgram slot (mem_of_getElem? isSlot) occupied isSession]
    rcases isFound with isNone | isProgram
    · rw [isSome] at isNone
      cases isNone
    · rw [← isProgram, isSome]

/-! ### Allocations -/

/-- What a scan that comes to its end has found about a lease of its session. -/
structure Passed (request : EndpointLeaseRequest) (entry : Registered) (slot : EndpointLeaseSlot) :
    Prop where
  id : entry.id = request.rendezvous
  program : entry.actors slot.offset.toNat = some request.program
  role : slot.role ≠ request.role
  unsealed : slot.state ≠ .membershipSealed

/-- The checks of one rendezvous. -/
theorem Knows.passed {request : EndpointLeaseRequest} {slots : List EndpointLeaseSlot}
    {bound : CompiledProgram}
    (knows : Knows platform layout entry request.session slots (some bound))
    (isId : entry.id = request.rendezvous) (same : bound.sameImage request.program = true)
    (noRole : (slots.any fun slot => slot.isOccupied ∧ slot.sid = request.session ∧
      slot.role = request.role) = false)
    (unsealed : (slots.any fun slot => slot.sid = request.session ∧
      slot.state = .membershipSealed) = false) (hasLease : HasLease platform entry index slot)
    (isSession : slot.sid = request.session) : Passed request entry slot := by
  have isProgram := knows.present bound rfl index slot hasLease isSession
  obtain ⟨found, isFound, isSlot, occupied⟩ := hasLease
  cases knows.slots.symm.trans isFound
  have mem := mem_of_getElem? isSlot
  refine ⟨isId, CompiledProgram.sameImage_iff.mp same ▸ isProgram, fun sameRole => ?_,
    fun isSealed => ?_⟩
  · exact any_eq_false.mp noRole slot mem (decide_eq_true ⟨occupied, isSession, sameRole⟩)
  · exact any_eq_false.mp unsealed slot mem (decide_eq_true ⟨isSession, isSealed⟩)

/-- The scan returns. When it finds nothing against the request, it has seen every lease of the
session. -/
theorem scanRegistry_spec (request : EndpointLeaseRequest) (entries : List Registered)
    (each : ∀ entry ∈ entries, ∃ slots bound,
      Knows platform layout entry request.session slots bound) (target : Option Nat) (index : Nat) :
    ∃ result, scanRegistry platform layout request target index entries = .ok result ∧
      ∀ found, result = .ok found →
        (∀ entry ∈ entries, ∀ index slot, HasLease platform entry index slot →
          slot.sid = request.session → Passed request entry slot) ∧
        (found = target ∨ ∃ position entry, found = some (index + position) ∧
          entries[position]? = some entry ∧ entry.id = request.rendezvous) := by
  induction entries generalizing target index with
  | nil =>
    refine ⟨.ok target, rfl, fun found isFound => ⟨nofun, ?_⟩⟩
    exact .inl (Except.ok.inj isFound).symm
  | cons entry rest hyp =>
    obtain ⟨slots, bound, knows⟩ := each entry mem_cons_self
    -- The rest of the scan, once the leases of this rendezvous are checked.
    have goesOn : (∀ index slot, HasLease platform entry index slot →
        slot.sid = request.session → Passed request entry slot) →
        ∃ result, scanRegistry platform layout request
            (if entry.id = request.rendezvous then some index else target) (index + 1) rest =
          .ok result ∧ ∀ found, result = .ok found →
            (∀ other ∈ entry :: rest, ∀ index slot, HasLease platform other index slot →
              slot.sid = request.session → Passed request other slot) ∧
            (found = target ∨ ∃ position, ∃ other : Registered, found = some (index + position) ∧
              (entry :: rest)[position]? = some other ∧ other.id = request.rendezvous) := by
      intro passed
      obtain ⟨result, isResult, sees⟩ := hyp
        (fun other mem => each other (mem_cons_of_mem _ mem))
        (if entry.id = request.rendezvous then some index else target) (index + 1)
      refine ⟨result, isResult, fun found isFound => ?_⟩
      obtain ⟨restPassed, isTarget⟩ := sees found isFound
      refine ⟨forall_mem_cons.mpr ⟨passed, restPassed⟩, ?_⟩
      rcases isTarget with same | ⟨position, other, rfl, isOther, isId⟩
      · split at same
        · rename_i isId
          exact .inr ⟨0, entry, same, rfl, isId⟩
        · exact .inl same
      · exact .inr ⟨position + 1, other, congrArg some (by omega), isOther, isId⟩
    rw [scanRegistry]
    by_cases busy : entry.busy = true
    · rw [if_pos busy]
      exact ⟨_, rfl, by rintro _ ⟨⟩⟩
    rw [if_neg busy, Registered.sessionMembershipIsSealed, knows.slots, Run.bind_ok, Run.pure_eq_ok,
      Run.bind_ok]
    by_cases isSealed : (slots.any fun slot => slot.sid = request.session ∧
        slot.state = .membershipSealed) = true
    · rw [if_pos isSealed]
      split <;> exact ⟨_, rfl, by rintro _ ⟨⟩⟩
    rw [if_neg isSealed, knows.program, Run.bind_ok]
    cases bound with
    | none =>
      exact goesOn fun slotIndex slot hasLease isSession =>
        absurd isSession (knows.absent rfl slotIndex slot hasLease)
    | some program =>
      dsimp only
      by_cases isId : entry.id = request.rendezvous
      · rw [if_neg (not_not_intro isId)]
        by_cases same : program.sameImage request.program = true
        · rw [if_neg (not_not_intro same), Registered.hasEndpointSessionRole, knows.slots,
            Run.bind_ok, Run.pure_eq_ok, Run.bind_ok]
          by_cases hasRole : (slots.any fun slot => slot.isOccupied ∧ slot.sid = request.session ∧
              slot.role = request.role) = true
          · rw [if_pos hasRole]
            exact ⟨_, rfl, by rintro _ ⟨⟩⟩
          · rw [if_neg hasRole]
            exact goesOn fun slotIndex slot hasLease isSession =>
              knows.passed isId same (Bool.eq_false_iff.mpr hasRole)
                (Bool.eq_false_iff.mpr isSealed) hasLease isSession
        · rw [if_pos same]
          exact ⟨_, rfl, by rintro _ ⟨⟩⟩
      · rw [if_pos isId]
        exact ⟨_, rfl, by rintro _ ⟨⟩⟩

end Registry

end Hibana
