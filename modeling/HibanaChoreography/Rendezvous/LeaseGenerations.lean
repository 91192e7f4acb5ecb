/-
This file is about the generations of leases. An allocation takes the next generation and
an abort gives the last one back, so the counter goes up and down, and slots are used
again.

Two facts make a generation a name nevertheless: an aborted reservation has the last
generation and was never published, and no occupied slot has a generation above the
counter or the generation of another one.
-/

import HibanaChoreography.Rendezvous.ArenaRuns

namespace Hibana

open Outcome ByteMemory Machines Rendezvous List

variable {Key Ref : Type} {contents after : Contents Key Ref} {published ended : List UInt32}

/-- A lease in a slot. -/
def OccupiesSlot (leases : List (EndpointLeaseSlot × Nat)) (index : Nat)
    (lease : EndpointLeaseSlot × Nat) : Prop :=
  leases[index]? = some lease ∧ lease.1.isOccupied = true

/-- The generations of the leases in a slab, against those that were published and those that were
released so far. -/
structure Fresh (contents : Contents Key Ref) (published ended : List UInt32) : Prop where
  distinct : published.Nodup
  publishedBelow : ∀ generation ∈ published, generation.toNat ≤ contents.generation.toNat
  endedBelow : ∀ generation ∈ ended, generation.toNat ≤ contents.generation.toNat
  below : ∀ index lease, OccupiesSlot contents.leases index lease →
    lease.1.generation.toNat ≤ contents.generation.toNat
  unique : ∀ first second lease other, OccupiesSlot contents.leases first lease →
    OccupiesSlot contents.leases second other → lease.1.generation = other.1.generation →
    first = second
  reserved : ∀ index lease, OccupiesSlot contents.leases index lease → lease.1.state = .reserved →
    lease.1.generation ∉ published
  gone : ∀ index lease, OccupiesSlot contents.leases index lease → lease.1.generation ∉ ended

/-- The leases of a slab come from those of another one: each keeps its slot and its generation, and
a reserved one was reserved before. -/
def Comes (before after : List (EndpointLeaseSlot × Nat)) : Prop :=
  ∀ index lease, OccupiesSlot after index lease → ∃ old, OccupiesSlot before index old ∧
    old.1.generation = lease.1.generation ∧
    (lease.1.state = .reserved → old.1.state = .reserved)

theorem Fresh.comes (fresh : Fresh contents published ended)
    (comes : Comes contents.leases after.leases)
    (sameGeneration : after.generation = contents.generation) : Fresh after published ended where
  distinct := fresh.distinct
  publishedBelow := sameGeneration ▸ fresh.publishedBelow
  endedBelow := sameGeneration ▸ fresh.endedBelow
  below := fun index lease occupies => by
    obtain ⟨old, wasThere, isGeneration, _⟩ := comes index lease occupies
    rw [sameGeneration, ← isGeneration]
    exact fresh.below index old wasThere
  unique := fun first second lease other isFirst isSecond same => by
    obtain ⟨old, wasFirst, isGeneration, _⟩ := comes first lease isFirst
    obtain ⟨oldOther, wasSecond, otherGeneration, _⟩ := comes second other isSecond
    exact fresh.unique first second old oldOther wasFirst wasSecond
      (isGeneration.trans (same.trans otherGeneration.symm))
  reserved := fun index lease occupies isReserved => by
    obtain ⟨old, wasThere, isGeneration, wasReserved⟩ := comes index lease occupies
    exact isGeneration ▸ fresh.reserved index old wasThere (wasReserved isReserved)
  gone := fun index lease occupies => by
    obtain ⟨old, wasThere, isGeneration, _⟩ := comes index lease occupies
    exact isGeneration ▸ fresh.gone index old wasThere

/-! ### Slots behind a request -/

variable {index : Nat} {lease : EndpointLeaseSlot × Nat} {sid : UInt32}
  {other : EndpointLeaseSlot × Nat}

theorem occupies_reserve {role : UInt8} {align : Nat} {lease : ReservedLease}
    (occupies : OccupiesSlot (contents.reserve sid role align lease).leases index other) :
    index = lease.slot.toNat ∧ other = (reservedSlot sid role lease, align) ∨
      index ≠ lease.slot.toNat ∧ OccupiesSlot contents.leases index other := by
  obtain ⟨isOther, occupied⟩ := occupies
  by_cases isSlot : lease.slot.toNat = index
  · rw [Contents.reserve, getElem?_set, if_pos isSlot] at isOther
    split at isOther
    · exact .inl ⟨isSlot.symm, (Option.some.inj isOther).symm⟩
    · cases isOther
  · rw [Contents.reserve, getElem?_set, if_neg isSlot, roomFor, getElem?_append] at isOther
    split at isOther
    · exact .inr ⟨fun same => isSlot same.symm, isOther, occupied⟩
    · exact absurd occupied (not_occupied_of_vacantSlots (mem_of_getElem? isOther))

theorem occupies_published {slot : Nat} (isLease : contents.leases[slot]? = some lease)
    (occupies : OccupiesSlot (contents.leases.modify slot publishedLease) index other) :
    index = slot ∧ other = publishedLease lease ∨
      index ≠ slot ∧ OccupiesSlot contents.leases index other := by
  obtain ⟨isOther, occupied⟩ := occupies
  by_cases isSlot : slot = index
  · subst isSlot
    rw [getElem?_modify_eq, isLease] at isOther
    exact .inl ⟨rfl, (Option.some.inj isOther).symm⟩
  · rw [getElem?_modify_ne _ _ isSlot] at isOther
    exact .inr ⟨fun same => isSlot same.symm, isOther, occupied⟩

theorem occupies_sealed
    (occupies : OccupiesSlot (contents.leases.map (sealedLease sid)) index lease) :
    ∃ old, OccupiesSlot contents.leases index old ∧ lease = sealedLease sid old := by
  obtain ⟨isLease, occupied⟩ := occupies
  rw [getElem?_map] at isLease
  obtain ⟨old, isOld, rfl⟩ := Option.map_eq_some_iff.mp isLease
  refine ⟨old, ⟨isOld, ?_⟩, rfl⟩
  unfold sealedLease at occupied
  split at occupied
  · rename_i isMember
    exact EndpointLeaseSlot.isOccupied_of_isPublished isMember.2
  · exact occupied

theorem occupies_released {slot : Nat} {generation : UInt32}
    (occupies : OccupiesSlot (releasedSlots contents.leases slot generation) index lease) :
    index ≠ slot ∧ OccupiesSlot contents.leases index lease := by
  obtain ⟨isLease, occupied⟩ := occupies
  rw [releasedSlots, occupiedSlots_eq_take, getElem?_take] at isLease
  split at isLease
  · by_cases isSlot : slot = index
    · rw [getElem?_set, if_pos isSlot] at isLease
      split at isLease
      · rw [← Option.some.inj isLease] at occupied
        exact absurd occupied Bool.false_ne_true
      · cases isLease
    · rw [getElem?_set, if_neg isSlot] at isLease
      exact ⟨fun same => isSlot same.symm, isLease, occupied⟩
  · cases isLease

/-! ### Steps -/

/-- The generations that a request publishes. -/
def ArenaOp.publishes : ArenaOp Key Ref → List UInt32
  | .publish _ generation => [generation]
  | _ => []

/-- The generations that a request releases. -/
def ArenaOp.ends : ArenaOp Key Ref → List UInt32
  | .release _ generation => [generation]
  | _ => []

namespace Fresh

variable (fresh : Fresh contents published ended)

include fresh

/-- The next generation is above all others. -/
theorem reserve {role : UInt8} {align : Nat} {lease : ReservedLease}
    (small : contents.generation.toNat < u32Max)
    (isNext : lease.generation = contents.generation + 1) :
    Fresh (contents.reserve sid role align lease) published ended := by
  have isNumber : lease.generation.toNat = contents.generation.toNat + 1 := by
    rw [isNext, Arena.toNat_next small]
  have older : ∀ generation : UInt32, generation.toNat ≤ contents.generation.toNat →
      lease.generation ≠ generation := fun generation isBelow same => by
    rw [same] at isNumber
    omega
  refine ⟨fresh.distinct, fun generation mem => ?_, fun generation mem => ?_,
    fun index other occupies => ?_, fun first second other another isFirst isSecond same => ?_,
    fun index other occupies isReserved => ?_, fun index other occupies => ?_⟩
  · have isBelow := fresh.publishedBelow generation mem
    show generation.toNat ≤ lease.generation.toNat
    omega
  · have isBelow := fresh.endedBelow generation mem
    show generation.toNat ≤ lease.generation.toNat
    omega
  · show other.1.generation.toNat ≤ lease.generation.toNat
    rcases occupies_reserve occupies with ⟨_, rfl⟩ | ⟨_, wasThere⟩
    · exact le_rfl
    · have isBelow := fresh.below index other wasThere
      omega
  · rcases occupies_reserve isFirst with ⟨rfl, rfl⟩ | ⟨_, wasFirst⟩
    · rcases occupies_reserve isSecond with ⟨rfl, _⟩ | ⟨_, wasSecond⟩
      · rfl
      · exact absurd same (older _ (fresh.below second another wasSecond))
    · rcases occupies_reserve isSecond with ⟨_, rfl⟩ | ⟨_, wasSecond⟩
      · exact absurd same.symm (older _ (fresh.below first other wasFirst))
      · exact fresh.unique first second other another wasFirst wasSecond same
  · rcases occupies_reserve occupies with ⟨_, rfl⟩ | ⟨_, wasThere⟩
    · exact fun mem => older _ (fresh.publishedBelow _ mem) rfl
    · exact fresh.reserved index other wasThere isReserved
  · rcases occupies_reserve occupies with ⟨_, rfl⟩ | ⟨_, wasThere⟩
    · exact fun mem => older _ (fresh.endedBelow _ mem) rfl
    · exact fresh.gone index other wasThere

variable {slot : Nat} {lease : EndpointLeaseSlot × Nat}

/-- A reserved lease is published for the first time. -/
theorem publish (isLease : contents.leases[slot]? = some lease)
    (isReserved : lease.1.state = .reserved) :
    Fresh { contents with leases := contents.leases.modify slot publishedLease }
      (published ++ [lease.1.generation]) ended := by
  have occupies : OccupiesSlot contents.leases slot lease := by
    refine ⟨isLease, ?_⟩
    rw [EndpointLeaseSlot.isOccupied, isReserved]
    rfl
  have comes : Comes contents.leases (contents.leases.modify slot publishedLease) := by
    intro index other isThere
    rcases occupies_published isLease isThere with ⟨rfl, rfl⟩ | ⟨_, wasThere⟩
    · exact ⟨lease, occupies, rfl, fun _ => isReserved⟩
    · exact ⟨other, wasThere, rfl, id⟩
  have kept : Fresh { contents with leases := contents.leases.modify slot publishedLease } published
    ended := fresh.comes comes rfl
  refine { kept with distinct := ?_, publishedBelow := ?_, reserved := ?_ }
  · rw [nodup_append]
    refine ⟨fresh.distinct, by simp, fun generation mem other isOther same => ?_⟩
    rw [same, mem_singleton.mp isOther] at mem
    exact fresh.reserved slot lease occupies isReserved mem
  · intro generation mem
    rcases mem_append.mp mem with isOld | isNew
    · exact fresh.publishedBelow generation isOld
    · rw [mem_singleton.mp isNew]
      exact fresh.below slot lease occupies
  · intro index other isThere stillReserved mem
    rcases occupies_published isLease isThere with ⟨rfl, rfl⟩ | ⟨ne, wasThere⟩
    · cases stillReserved
    · rcases mem_append.mp mem with isOld | isNew
      · exact fresh.reserved index other wasThere stillReserved isOld
      · exact ne
          (fresh.unique index slot other lease wasThere occupies (mem_singleton.mp isNew))

theorem sealMembership (sid : UInt32) :
    Fresh { contents with leases := contents.leases.map (sealedLease sid) } published ended := by
  refine fresh.comes (fun index lease occupies => ?_) rfl
  obtain ⟨old, wasThere, rfl⟩ := occupies_sealed occupies
  refine ⟨old, wasThere, ?_, ?_⟩
  · unfold sealedLease
    split <;> rfl
  · unfold sealedLease
    split
    · exact nofun
    · exact id

/-- A released lease is gone, and with it the only slot of its generation. -/
theorem release (occupies : OccupiesSlot contents.leases slot lease) :
    Fresh { contents with
      leases := releasedSlots contents.leases slot lease.1.generation } published
      (ended ++ [lease.1.generation]) := by
  have kept : Fresh { contents with
      leases := releasedSlots contents.leases slot lease.1.generation } published ended :=
    fresh.comes (fun index other isThere => ⟨other, (occupies_released isThere).2, rfl, id⟩) rfl
  refine { kept with endedBelow := ?_, gone := ?_ }
  · intro generation mem
    rcases mem_append.mp mem with isOld | isNew
    · exact fresh.endedBelow generation isOld
    · rw [mem_singleton.mp isNew]
      exact fresh.below slot lease occupies
  · intro index other isThere mem
    obtain ⟨ne, wasThere⟩ := occupies_released isThere
    rcases mem_append.mp mem with isOld | isNew
    · exact fresh.gone index other wasThere isOld
    · exact ne (fresh.unique index slot other lease wasThere occupies (mem_singleton.mp isNew))

/-- An abort gives the last generation back: nothing else has it. -/
theorem abort (isLease : contents.leases[slot]? = some lease)
    (isReserved : lease.1.state = .reserved) (isLast : contents.generation = lease.1.generation)
    (pos : lease.1.generation ≠ 0) :
    Fresh { contents with
      leases := releasedSlots contents.leases slot lease.1.generation
      generation := lease.1.generation - 1 } published ended := by
  have occupies : OccupiesSlot contents.leases slot lease := by
    refine ⟨isLease, ?_⟩
    rw [EndpointLeaseSlot.isOccupied, isReserved]
    rfl
  have isBelow : (1 : UInt32) ≤ lease.1.generation := by
    refine UInt32.le_iff_toNat_le.mpr (Nat.pos_of_ne_zero fun isZero => pos ?_)
    exact UInt32.toNat.inj isZero
  have counter : (lease.1.generation - 1).toNat = lease.1.generation.toNat - 1 :=
    UInt32.toNat_sub_of_le _ _ isBelow
  -- what is not the last generation is below it
  have lower : ∀ generation : UInt32, generation.toNat ≤ contents.generation.toNat →
      generation ≠ lease.1.generation → generation.toNat ≤ (lease.1.generation - 1).toNat := by
    intro generation isOld ne
    rw [isLast] at isOld
    have notEqual : generation.toNat ≠ lease.1.generation.toNat := fun same =>
      ne (UInt32.toNat.inj same)
    omega
  have kept : Fresh { contents with
      leases := releasedSlots contents.leases slot lease.1.generation } published ended :=
    fresh.comes (fun index other isThere => ⟨other, (occupies_released isThere).2, rfl, id⟩) rfl
  refine { kept with publishedBelow := ?_, endedBelow := ?_, below := ?_ }
  · intro generation mem
    refine lower generation (fresh.publishedBelow generation mem) fun same => ?_
    exact fresh.reserved slot lease occupies isReserved (same ▸ mem)
  · intro generation mem
    refine lower generation (fresh.endedBelow generation mem) fun same => ?_
    exact fresh.gone slot lease occupies (same ▸ mem)
  · intro index other isThere
    obtain ⟨ne, wasThere⟩ := occupies_released isThere
    refine lower _ (fresh.below index other wasThere) fun same => ?_
    exact ne (fresh.unique index slot other lease wasThere occupies same)

/-- Every request keeps the generations apart. -/
theorem step [DecidableEq Key] {op : ArenaOp Key Ref} {reply : ArenaReply}
    (answered : op.Answered reply contents) :
    Fresh (op.effect reply contents) (published ++ op.publishes) (ended ++ op.ends) := by
  have unchanged : ∀ other : Contents Key Ref, other.leases = contents.leases →
      other.generation = contents.generation → Fresh other (published ++ []) (ended ++ []) := by
    intro other sameLeases sameGeneration
    rw [append_nil, append_nil]
    refine fresh.comes (fun index lease occupies => ⟨lease, ?_, rfl, id⟩) sameGeneration
    rwa [sameLeases] at occupies
  cases op with
  | allocate sid role bytes align =>
    rcases reply with ⟨_ | lease⟩ | _ | _ | _ | _ | _
    case allocated.ok =>
      show Fresh _ (published ++ []) (ended ++ [])
      rw [append_nil, append_nil]
      exact fresh.reserve answered.1 answered.2.1
    all_goals exact unchanged contents rfl rfl
  | publish slot generation =>
    obtain ⟨lease, isLease, rfl, isReserved⟩ := answered
    show Fresh _ (published ++ [lease.1.generation]) (ended ++ [])
    rw [append_nil]
    exact fresh.publish isLease isReserved
  | sealMembership sid =>
    show Fresh _ (published ++ []) (ended ++ [])
    rw [append_nil, append_nil]
    exact fresh.sealMembership sid
  | release slot generation =>
    obtain ⟨lease, isLease, rfl, occupied⟩ := answered
    show Fresh _ (published ++ []) (ended ++ [lease.1.generation])
    rw [append_nil]
    exact fresh.release ⟨isLease, occupied⟩
  | abort slot generation =>
    obtain ⟨isLast, pos, lease, isLease, rfl, isReserved⟩ := answered
    show Fresh _ (published ++ []) (ended ++ [])
    rw [append_nil, append_nil]
    exact fresh.abort isLease isReserved isLast pos
  | growResolvers additional =>
    rcases reply with _ | ⟨_ | _⟩ | _ | _ | _ | _
    all_goals exact unchanged _ rfl rfl
  | attach sid lane =>
    rcases reply with _ | _ | ⟨_ | _⟩ | _ | _ | _
    all_goals exact unchanged _ rfl rfl
  | insertResolver _ _ | growLanes _ _ | releaseLane _ _ | poison _ _ =>
    exact unchanged _ rfl rfl

end Fresh

/-! ### Histories -/

namespace Arena

variable [DecidableEq Key] {platform : Platform Key Ref} {arena : Arena}

/-- The generations that a history has published, in order. -/
def publishedGenerations (visits : List (Visit Arena (ArenaOp Key Ref) ArenaReply)) : List UInt32 :=
  visits.flatMap fun visit => visit.op.publishes

/-- The generations that a history has released, in order. -/
def endedGenerations (visits : List (Visit Arena (ArenaOp Key Ref) ArenaReply)) : List UInt32 :=
  visits.flatMap fun visit => visit.op.ends

theorem Keeps.fresh {start : Rendezvous} {first : Arena}
    {visits : List (Visit Arena (ArenaOp Key Ref) ArenaReply)}
    (keeps : Keeps platform start first contents) (isFresh : Fresh contents [] [])
    (history : History (machine platform) first visits arena) :
    Fresh (effects ArenaOp.effect contents visits) (publishedGenerations visits)
      (endedGenerations visits) := by
  induction history with
  | start => exact isFresh
  | step earlier op admitted isOk hyp =>
    obtain ⟨_, _, isOther, answered, _⟩ := (keeps.history earlier).perform admitted
    cases isOk.symm.trans isOther
    rw [effects_append, publishedGenerations, endedGenerations, flatMap_append,
      flatMap_append, flatMap_singleton, flatMap_singleton]
    exact hyp.step answered

omit [DecidableEq Key] in
theorem fresh_empty : Fresh (Contents.empty : Contents Key Ref) [] [] := by
  have none : ∀ index lease,
      ¬ OccupiesSlot (Contents.empty : Contents Key Ref).leases index lease :=
    fun index lease occupies => absurd occupies.1 (by simp [Contents.empty])
  exact ⟨nodup_nil, nofun, nofun, fun _ _ occupies => (none _ _ occupies).elim,
    fun _ _ _ _ occupies => (none _ _ occupies).elim,
    fun _ _ occupies => (none _ _ occupies).elim,
    fun _ _ occupies => (none _ _ occupies).elim⟩

/-- Generations over whole histories. No two leases are published with one generation, and a pair of
a slot and a generation that was released is found in no later state. -/
theorem published_generations_are_unique {memory : Memory} {slabPtr slabLen : Nat}
    (nonnull : 0 < slabPtr) (fits : slabPtr + slabLen ≤ platform.usizeMax)
    {visits : List (Visit Arena (ArenaOp Key Ref) ArenaReply)}
    (history : History (machine platform) (new memory slabPtr slabLen) visits arena) :
    (publishedGenerations visits).Nodup ∧
    ∀ slot generation, (∃ visit ∈ visits, visit.op = .release slot generation) →
      arena.rv.endpointLease platform slot generation = .ok none := by
  have begun := new_keeps platform memory nonnull fits
  have keeps := begun.history history
  have fresh := begun.fresh fresh_empty history
  refine ⟨fresh.distinct, fun slot generation => ?_⟩
  rintro ⟨visit, mem, isRelease⟩
  have isEnded : generation ∈ endedGenerations visits := by
    refine mem_flatMap.mpr ⟨visit, mem, ?_⟩
    rw [isRelease]
    exact mem_singleton.mpr rfl
  rw [endpointLease, keeps.holds.slotByIndex, Run.bind_ok]
  cases isLease : (effects ArenaOp.effect Contents.empty visits).leases[slot.toNat]? with
  | none => rfl
  | some lease =>
    refine congrArg Except.ok (if_neg ?_)
    rintro ⟨isPublished, rfl⟩
    exact fresh.gone slot.toNat lease
      ⟨isLease, EndpointLeaseSlot.isOccupied_of_isPublished isPublished⟩ isEnded

/-- A generation that was aborted is published later, in the slot of a lease that was released. -/
theorem published_generations_are_unique_released :
    ∃ visits arena, History (machine Platform.narrow) (new (fun _ => 0) 4096 256) visits arena ∧
      publishedGenerations visits = [1, 2, 3] ∧ (publishedGenerations visits).Nodup ∧
      arena.rv.endpointLease Platform.narrow 0 1 = .ok none ∧
      arena.rv.endpointLease Platform.narrow 0 3 = .ok (some ⟨3, 7, 224, 32, 2, .published⟩) := by
  have run : (do
      let (visits, arena) ← playNarrow [.allocate 7 0 32 16, .publish 0 1, .allocate 7 1 32 16,
        .publish 1 2, .allocate 8 0 32 16, .abort 2 3, .release 0 1, .allocate 7 2 32 16,
        .publish 0 3]
      return (publishedGenerations visits, ← arena.rv.endpointLease Platform.narrow 0 3)) =
        .ok ([1, 2, 3], some ⟨3, 7, 224, 32, 2, .published⟩) := by
    decide +kernel
  obtain ⟨⟨visits, arena⟩, isPlayed, run⟩ := Run.of_bind run
  obtain ⟨lease, isLease, run⟩ := Run.of_bind run
  obtain ⟨isPublished, rfl⟩ := Prod.mk.inj (Except.ok.inj run)
  obtain ⟨history, isOps⟩ := History.of_play (machine _) admits_of_permits isPlayed
  obtain ⟨distinct, gone⟩ := published_generations_are_unique (by decide) (by decide) history
  refine ⟨visits, arena, history, isPublished, distinct, gone 0 1 (mem_map.mp ?_), isLease⟩
  rw [isOps]
  simp

end Arena

end Hibana
