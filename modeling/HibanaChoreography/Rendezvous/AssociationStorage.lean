/-
This file follows the map of attachments through the lanes of a rendezvous.

A store of lanes represents a map when its table holds the map and lies in a block
of its own, or has no storage. Attachments, releases and faults change the map as
they say, or are refused; growth into another block, shrinking in place, a narrower
range of lanes and a moved block keep it.
-/

import HibanaChoreography.Rendezvous.AssociationSteps

namespace Hibana

open Outcome ByteMemory List

namespace AssocTable

/-- A table in a block of its owner. -/
structure Block (usizeMax : Nat) (table : AssocTable) : Prop where
  stored : table.Stored
  aligned : table.entrySids % storageAlign = 0
  positive : 0 < table.assocSlots
  small : table.assocSlots ≤ 65535
  lanes : table.laneSlots ≤ 65535
  fits : table.entrySids + blockBytes table.assocSlots ≤ usizeMax

/-- A table with the columns of a block. -/
def ofBlock (storage laneBase laneSlots assocSlots : Nat) : AssocTable :=
  ⟨laneBase, laneSlots, assocSlots, storage, storage + 4 * assocSlots,
    storage + 5 * assocSlots + assocSlots % 2⟩

theorem ofBlock_stored (storage laneBase laneSlots assocSlots : Nat) :
    (ofBlock storage laneBase laneSlots assocSlots).Stored := ⟨rfl, rfl⟩

theorem commitStorage_eq {usizeMax storage laneBase laneSlots assocSlots : Nat}
    (aligned : storage % storageAlign = 0) (pos : 0 < assocSlots) (small : assocSlots ≤ 65535)
    (lanes : laneSlots ≤ 65535) (fits : storage + blockBytes assocSlots ≤ usizeMax) :
    commitStorage usizeMax storage laneBase laneSlots assocSlots =
      .ok (ofBlock storage laneBase laneSlots assocSlots) := by
  unfold storageAlign at aligned
  rw [commitStorage, storageParts_eq (by omega) pos fits, Run.bind_ok, publish, if_neg (by omega)]
  rfl

end AssocTable

namespace LaneStore

/-- The store holds a map of attachments: its table does, and the range of lanes is that of the
table, which lies in a block or has no storage. -/
structure Represents (usizeMax : Nat) (store : LaneStore) (map : Attachments) : Prop where
  holds : ∃ front back, store.assoc.Holds store.memory map front back
  laneEnd : store.laneEnd = store.laneBase + store.assoc.laneSlots
  laneBase : store.assoc.isBound = true → store.assoc.laneBase = store.laneBase
  block : store.assoc.isBound = true → store.assoc.Block usizeMax
  unbound : store.assoc.isBound = false → store.assoc = AssocTable.initEmpty

variable {usizeMax : Nat} {store : LaneStore} {map : Attachments}

/-- A lane in the range is a lane of the table. -/
theorem Represents.inRange (represents : store.Represents usizeMax map) {lane : UInt8}
    (low : store.laneBase ≤ lane.toNat) (high : lane.toNat < store.laneEnd) :
    store.assoc.laneBase ≤ lane.toNat ∧
      lane.toNat < store.assoc.laneBase + store.assoc.laneSlots := by
  have laneEnd := represents.laneEnd
  cases isBound : store.assoc.isBound with
  | false =>
    rw [represents.unbound isBound] at laneEnd
    exact absurd high (by rw [laneEnd]; exact Nat.not_lt.mpr low)
  | true =>
    rw [represents.laneBase isBound]
    omega

variable {front back : List AssocEntry} {laneBase laneSlots assocSlots : Nat} {memory : Memory}
  {table : AssocTable}

/-- The same store with the memory of another map. -/
theorem Represents.withMemory (represents : store.Represents usizeMax map) {changed : Memory}
    {other : Attachments} (holds : store.assoc.Holds changed other front back) :
    ({ store with memory := changed } : LaneStore).Represents usizeMax other :=
  ⟨⟨front, back, holds⟩, represents.laneEnd, represents.laneBase, represents.block,
    represents.unbound⟩

/-! ### Attachments, releases and faults -/

/-- An attachment counts one more, or it is refused and nothing changes: a faulted session is
always refused. -/
theorem Represents.activate (represents : store.Represents usizeMax map) (sid : UInt32)
    (lane : UInt8) :
    (∃ next, store.activateLaneAttachment sid lane = .ok (.ok (), next) ∧
      map.fault sid = none ∧ next.Represents usizeMax (map.attach sid lane.toNat)) ∨
    ∃ error, store.activateLaneAttachment sid lane = .ok (.error error, store) := by
  unfold activateLaneAttachment
  split
  · exact .inr ⟨_, rfl⟩
  · rename_i isInside
    obtain ⟨low, high⟩ := represents.inRange (show store.laneBase ≤ lane.toNat by omega) (by omega)
    obtain ⟨front, back, holds⟩ := represents.holds
    rw [sessionFault, holds.sessionFault, Run.bind_ok]
    cases noFault : map.fault sid with
    | some kind => exact .inr ⟨_, if_pos rfl⟩
    | none =>
      rw [if_neg (by decide)]
      split
      · rename_i hasEntry
        have attached := (holds.hasEntry_iff low high).mp hasEntry
        rcases holds.increment low high attached with ⟨_, isFull⟩ |
          ⟨next, changed, newFront, isNext, isHeld⟩
        · rw [isFull, Run.bind_ok]
          exact .inr ⟨_, rfl⟩
        · rw [isNext, Run.bind_ok]
          exact .inl ⟨_, rfl, rfl, represents.withMemory isHeld⟩
      · rename_i noEntry
        have isNew : map.count sid lane.toNat = 0 := by
          by_contra notZero
          exact noEntry ((holds.hasEntry_iff low high).mpr (Nat.pos_of_ne_zero notZero))
        rcases holds.register low high isNew noFault with ⟨_, isFull⟩ | ⟨changed, newFront, newBack,
          isNext, isHeld⟩
        · rw [isFull, Run.bind_ok]
          exact .inr ⟨_, rfl⟩
        · rw [isNext, Run.bind_ok]
          exact .inl ⟨_, rfl, rfl, represents.withMemory isHeld⟩

/-- A release counts one less. -/
theorem Represents.release (represents : store.Represents usizeMax map) {sid : UInt32}
    {lane : UInt8} (hasEntry : store.assoc.hasEntry store.memory lane sid = true) :
    ∃ next, store.releaseLane sid lane =
        .ok (if 1 < map.count sid lane.toNat then .stillHeld else .released, next) ∧
      0 < map.count sid lane.toNat ∧
      next.Represents usizeMax (map.release sid lane.toNat) := by
  obtain ⟨front, back, holds⟩ := represents.holds
  have range : store.assoc.laneBase ≤ lane.toNat ∧
      lane.toNat < store.assoc.laneBase + store.assoc.laneSlots := by
    unfold AssocTable.hasEntry at hasEntry
    cases isOffset : store.assoc.laneOffset lane with
    | none =>
      rw [isOffset] at hasEntry
      cases hasEntry
    | some offset =>
      have isLane := AssocTable.Holds.laneOffset_some isOffset
      omega
  have attached := (holds.hasEntry_iff range.1 range.2).mp hasEntry
  obtain ⟨remaining, changed, newFront, newBack, isOk, isRemaining, isHeld⟩ :=
    holds.decrement range.1 range.2 attached
  refine ⟨{ store with memory := changed }, ?_, attached, represents.withMemory isHeld⟩
  rw [releaseLane, isOk, Run.bind_ok]
  dsimp only
  have isHeldStill : 0 < map.count sid lane.toNat - 1 ↔ 1 < map.count sid lane.toNat := by omega
  rw [isRemaining, if_congr isHeldStill rfl rfl]
  rfl

/-- A session keeps its first fault. -/
theorem Represents.poison (represents : store.Represents usizeMax map) (sid : UInt32)
    (cause : SessionFaultKind) :
    ∃ next, store.poisonSession sid cause = .ok ((map.fault sid).getD cause, next) ∧
      next.Represents usizeMax (map.poison sid cause) := by
  obtain ⟨front, back, holds⟩ := represents.holds
  obtain ⟨changed, newFront, isOk, isHeld⟩ := holds.poisonSession sid cause
  refine ⟨{ store with memory := changed }, ?_, represents.withMemory isHeld⟩
  rw [poisonSession, isOk, Run.bind_ok]
  rfl

/-! ### Storage -/

/-- A block that the owner of the table may hand out for it: aligned, in the address space, large
enough, and apart from the present block. -/
structure Grants (usizeMax : Nat) (store : LaneStore) (storage laneSlots assocSlots : Nat) :
    Prop where
  nonnull : storage ≠ 0
  aligned : storage % AssocTable.storageAlign = 0
  positive : 0 < assocSlots
  small : assocSlots ≤ 65535
  lanes : laneSlots ≤ 65535
  fits : storage + AssocTable.blockBytes assocSlots ≤ usizeMax
  moreLanes : store.assoc.laneSlots ≤ laneSlots
  moreSlots : store.assoc.assocSlots ≤ assocSlots
  apart : store.assoc.isBound = true →
    storage + AssocTable.blockBytes assocSlots ≤ store.assoc.entrySids ∨
      store.assoc.entrySids + AssocTable.blockBytes store.assoc.assocSlots ≤ storage

/-- A table in a new block holds the map when its live entries are those of the old one. -/
theorem represents_ofBlock {storage laneBase laneSlots assocSlots : Nat} (nonnull : storage ≠ 0)
    (aligned : storage % AssocTable.storageAlign = 0) (pos : 0 < assocSlots)
    (small : assocSlots ≤ 65535) (lanes : laneSlots ≤ 65535)
    (fits : storage + AssocTable.blockBytes assocSlots ≤ usizeMax)
    (isEntries : (AssocTable.ofBlock storage laneBase laneSlots assocSlots).entries memory =
      front ++ back) (listed : map.Listed laneBase laneSlots front)
    (dead : ∀ entry ∈ back, entry.isLive = false) :
    (⟨memory, AssocTable.ofBlock storage laneBase laneSlots assocSlots, laneBase,
      laneBase + laneSlots⟩ : LaneStore).Represents usizeMax map where
  holds := ⟨front, back, (AssocTable.ofBlock_stored ..).laid, isEntries, listed, dead⟩
  laneEnd := rfl
  laneBase := fun _ => rfl
  block := fun _ => ⟨AssocTable.ofBlock_stored .., aligned, pos, small, lanes, fits⟩
  unbound := fun isUnbound => by
    rw [AssocTable.isBound, decide_eq_false_iff_not, not_not] at isUnbound
    exact absurd isUnbound nonnull

theorem listed_moreLanes {more : Nat} {entries : List AssocEntry}
    (listed : map.Listed laneBase laneSlots entries) (isMore : laneSlots ≤ more) :
    map.Listed laneBase more entries :=
  ⟨fun entry mem => { listed.stores entry mem with
    inRange := Nat.lt_of_lt_of_le (listed.stores entry mem).inRange isMore },
    listed.distinct, listed.complete, listed.faults⟩

/-- A map without entries does not depend on the range of lanes. -/
theorem listed_nil {otherBase otherSlots : Nat} (listed : map.Listed laneBase laneSlots []) :
    map.Listed otherBase otherSlots [] where
  stores := nofun
  distinct := nodup_nil
  complete := fun sid lane isPositive => by
    obtain ⟨entry, mem, _⟩ := listed.complete sid lane isPositive
    cases mem
  faults := listed.faults

/-- The live entries of a table. -/
theorem holds_filter (holds : table.Holds memory map front back) :
    (table.entries memory).filter AssocEntry.isLive = front := by
  rw [holds.entries, filter_append,
    filter_eq_self.mpr fun entry mem => holds.listed.live mem,
    filter_eq_nil_iff.mpr fun entry mem => by
      rw [holds.dead entry mem]
      exact Bool.false_ne_true, append_nil]

/-- A table grows into another block and keeps its map. -/
theorem Represents.install (represents : store.Represents usizeMax map) {storage : Nat}
    (grants : store.Grants usizeMax storage laneSlots assocSlots) :
    ∃ memory, store.installLaneStorage usizeMax storage laneSlots assocSlots = .ok
        ⟨memory, .ofBlock storage store.laneBase laneSlots assocSlots, store.laneBase,
          store.laneBase + laneSlots⟩ ∧
      (⟨memory, .ofBlock storage store.laneBase laneSlots assocSlots, store.laneBase,
        store.laneBase + laneSlots⟩ : LaneStore).Represents usizeMax map ∧
      AgreeOutside storage (storage + AssocTable.blockBytes assocSlots) store.memory memory := by
  obtain ⟨front, back, holds⟩ := represents.holds
  have aligned := grants.aligned
  unfold AssocTable.storageAlign at aligned
  have isParts := AssocTable.storageParts_eq (by omega) grants.positive grants.fits
  have newStored := AssocTable.ofBlock_stored storage store.laneBase laneSlots assocSlots
  obtain ⟨isCleared, keptOutside⟩ := AssocTable.clearEntries_spec newStored.laid store.memory
  have outsideBlock : ∀ place, place < storage ∨
      storage + AssocTable.blockBytes assocSlots ≤ place →
      (AssocTable.ofBlock storage store.laneBase laneSlots assocSlots).Outside place :=
    fun place outside => by
      rw [AssocTable.Outside, newStored.stop]
      exact outside
  have deadRest : ∀ count, ∀ entry ∈ (List.replicate assocSlots AssocEntry.empty).drop count,
      entry.isLive = false := by
    intro count entry mem
    rw [drop_replicate] at mem
    rw [eq_of_mem_replicate mem]
    exact AssocEntry.isLive_empty
  unfold installLaneStorage
  split
  · rename_i isBound
    have block := represents.block isBound
    have isBase := represents.laneBase isBound
    have slots := holds.slots
    have moreSlots := grants.moreSlots
    have isLive : ((List.range store.assoc.assocSlots).map
        (store.assoc.entryAt store.memory)).filter AssocEntry.isLive = front := holds_filter holds
    obtain ⟨after, isAfter, isEntries, isFrame⟩ :=
      AssocTable.copyEntries_spec holds.laid newStored.laid
      (fun place low high => by
        rw [block.stored.stop] at high
        have apart := grants.apart isBound
        exact outsideBlock place (by omega))
      (List.range store.assoc.assocSlots) 0 _ store.memory
      (fun index mem => mem_range.mp mem) keptOutside
      (fun entry mem => by
        rw [isLive] at mem
        have inRange := (holds.listed.stores entry mem).inRange
        have moreLanes := grants.moreLanes
        have bound := entry.lane.toNat_lt
        rw [AssocTable.LaneFits, isBase]
        show store.laneBase ≤ _ ∧ _ - store.laneBase < laneSlots ∧ _ - store.laneBase ≤ 255
        omega)
      (by
        rw [isLive]
        show 0 + front.length ≤ assocSlots
        omega)
    rw [isLive, isCleared, take_zero, nil_append, Nat.zero_add] at isEntries
    have sameFront : front.map (AssocTable.movedEntry store.assoc
        (AssocTable.ofBlock storage store.laneBase laneSlots assocSlots)) = front := by
      refine (map_congr_left fun entry _ => ?_).trans (map_id front)
      exact AssocTable.movedEntry_of_base isBase entry
    rw [sameFront] at isEntries
    have isFilled : store.assoc.initReplacementStorage usizeMax store.memory storage store.laneBase
        laneSlots assocSlots = .ok after := by
      rw [AssocTable.initReplacementStorage, isParts, Run.bind_ok]
      exact isAfter
    refine ⟨after, ?_, ?_, fun place outside => isFrame place (outsideBlock place outside)⟩
    · rw [isFilled, Run.bind_ok, AssocTable.commitStorage_eq grants.aligned grants.positive
        grants.small grants.lanes grants.fits, Run.bind_ok]
      rfl
    · exact represents_ofBlock grants.nonnull grants.aligned grants.positive grants.small
        grants.lanes grants.fits isEntries
        (listed_moreLanes (isBase ▸ holds.listed) grants.moreLanes) (deadRest _)
  · rename_i isUnbound
    have isEmpty := represents.unbound (Bool.eq_false_iff.mpr isUnbound)
    have noEntries := holds.entries
    rw [isEmpty] at noEntries
    obtain ⟨rfl, _⟩ := append_eq_nil_iff.mp noEntries.symm
    refine ⟨AssocTable.clearEntries (AssocTable.ofBlock storage store.laneBase laneSlots
      assocSlots).parts store.memory assocSlots, ?_, ?_, fun place outside =>
        keptOutside place (outsideBlock place outside)⟩
    · rw [AssocTable.bindFromStorage, isParts, Run.bind_ok, AssocTable.publish,
        if_neg (by have small := grants.small; have lanes := grants.lanes; omega), Run.bind_ok]
      rfl
    · rw [← nil_append (List.replicate _ _)] at isCleared
      refine represents_ofBlock grants.nonnull grants.aligned grants.positive grants.small
        grants.lanes grants.fits isCleared ?_ (deadRest 0)
      exact listed_nil holds.listed

theorem holds_activeEntryCount (holds : table.Holds memory map front back) :
    table.activeEntryCount memory = front.length := by
  rw [AssocTable.activeEntryCount, countP_eq_length_filter, holds_filter holds]

/-- The entries in front are live, and the others are not. -/
theorem holds_isLive (holds : table.Holds memory map front back) {index : Nat}
    (inside : index < table.assocSlots) :
    (table.entryAt memory index).isLive = decide (index < front.length) := by
  have isInside : index < (table.entries memory).length := by
    rwa [AssocTable.length_entries]
  rw [← AssocTable.getElem_entries isInside]
  simp only [holds.entries]
  by_cases inFront : index < front.length
  · rw [getElem_append_left inFront, holds.listed.live (getElem_mem _)]
    exact (decide_eq_true inFront).symm
  · rw [getElem_append_right (by omega), holds.dead _ (getElem_mem _)]
    exact (decide_eq_false inFront).symm

/-- The table shrinks in its block and keeps its map. -/
theorem Represents.shrink (represents : store.Represents usizeMax map)
    (isBound : store.assoc.isBound = true) (pos : 0 < assocSlots)
    (fewer : assocSlots < store.assoc.assocSlots)
    (enough : store.assoc.activeEntryCount store.memory ≤ assocSlots) :
    ∃ memory, store.shrinkInPlace usizeMax store.assoc.entrySids assocSlots = .ok { store with
          memory
          assoc := .ofBlock store.assoc.entrySids store.assoc.laneBase store.assoc.laneSlots
            assocSlots } ∧
      ({ store with
          memory
          assoc := .ofBlock store.assoc.entrySids store.assoc.laneBase store.assoc.laneSlots
            assocSlots } : LaneStore).Represents usizeMax map ∧
      AgreeOutside store.assoc.entrySids
        (store.assoc.entrySids + AssocTable.blockBytes store.assoc.assocSlots) store.memory
        memory := by
  obtain ⟨front, back, holds⟩ := represents.holds
  have block := represents.block isBound
  have aligned := block.aligned
  have fits := block.fits
  have small := block.small
  have isCount := holds_activeEntryCount holds
  unfold AssocTable.storageAlign at aligned
  rw [isCount] at enough
  have smallFits : store.assoc.entrySids + AssocTable.blockBytes assocSlots ≤ usizeMax := by
    unfold AssocTable.blockBytes at fits ⊢
    omega
  have prefixed : ¬ ((List.range store.assoc.assocSlots).any fun index =>
      decide (index < front.length) != (store.assoc.entryAt store.memory index).isLive) = true := by
    rw [any_eq_true]
    rintro ⟨index, mem, differs⟩
    rw [holds_isLive holds (mem_range.mp mem), bne_self_eq_false] at differs
    cases differs
  have isEntries : (AssocTable.ofBlock store.assoc.entrySids store.assoc.laneBase
      store.assoc.laneSlots assocSlots).entries (copy (copy store.memory store.assoc.entryLanes
        (store.assoc.entrySids + 4 * assocSlots) (assocSlots * byte.size)) store.assoc.entryStates
        (store.assoc.entrySids + 5 * assocSlots + assocSlots % 2) (assocSlots * halfword.size)) =
      (store.assoc.entries store.memory).take assocSlots :=
    AssocTable.shrink_entries block.stored (AssocTable.ofBlock_stored ..) rfl rfl fewer
  rw [holds.entries, take_append, take_of_length_le enough] at isEntries
  have agree : AgreeOutside store.assoc.entrySids
      (store.assoc.entrySids + AssocTable.blockBytes store.assoc.assocSlots) store.memory
      (copy (copy store.memory store.assoc.entryLanes
        (store.assoc.entrySids + 4 * assocSlots) (assocSlots * byte.size)) store.assoc.entryStates
        (store.assoc.entrySids + 5 * assocSlots + assocSlots % 2)
          (assocSlots * halfword.size)) := by
    unfold AssocTable.blockBytes
    exact (copy_agree _ (by omega) (by rw [byte_size]; omega)).trans
      (copy_agree _ (by omega) (by rw [halfword_size]; omega))
  generalize isAfter : copy (copy _ _ _ _) _ _ _ = after at isEntries agree
  refine ⟨after, ?_, ?_, agree⟩
  · rw [shrinkInPlace, AssocTable.shrinkStorageInPlace]
    dsimp only
    rw [isCount, if_neg (by omega), if_neg prefixed,
      AssocTable.storageParts_eq (by omega) pos smallFits, Run.bind_ok, ← isAfter]
    rfl
  · rw [represents.laneEnd, ← represents.laneBase isBound]
    exact represents_ofBlock (of_decide_eq_true isBound) block.aligned pos (by omega)
      block.lanes smallFits isEntries holds.listed
      fun entry mem => holds.dead entry (mem_of_mem_take mem)

/-- A table without live entries gives its block back. -/
theorem Represents.clear (represents : store.Represents usizeMax map)
    (noneLive : store.assoc.activeEntryCount store.memory = 0) :
    store.clearAssoc = .ok { store with assoc := .initEmpty } ∧
      ({ store with assoc := .initEmpty, laneEnd := store.laneBase } : LaneStore).Represents
        usizeMax map := by
  obtain ⟨front, back, holds⟩ := represents.holds
  rw [holds_activeEntryCount holds, length_eq_zero_iff] at noneLive
  subst noneLive
  refine ⟨?_, ⟨⟨[], [], ?_⟩, rfl, fun isBound => absurd isBound Bool.false_ne_true,
    fun isBound => absurd isBound Bool.false_ne_true, fun _ => rfl⟩⟩
  · rw [clearAssoc, AssocTable.clearStorage, holds_activeEntryCount holds]
    rfl
  · exact ⟨⟨Nat.le_refl 0, Nat.le_refl 0⟩, rfl, listed_nil holds.listed, nofun⟩

theorem foldl_lanes_le (entries : List AssocEntry) (start bound : Nat) :
    entries.foldl (fun required entry => max required (entry.lane.toNat + 1)) start ≤ bound ↔
      start ≤ bound ∧ ∀ entry ∈ entries, entry.lane.toNat < bound := by
  induction entries generalizing start with
  | nil => simp
  | cons first rest hyp =>
    rw [foldl_cons, hyp, forall_mem_cons, Nat.max_le, and_assoc]
    rfl

/-- The number of active lanes is the least number above the lanes that the map has. -/
theorem activeLaneSlots_le (holds : table.Holds memory map front back) (required : Nat) :
    table.activeLaneSlots memory ≤ required ↔
      ∀ sid lane, 0 < map.count sid lane → lane < table.laneBase + required := by
  rw [AssocTable.activeLaneSlots, holds_filter holds, foldl_lanes_le]
  constructor
  · rintro ⟨_, below⟩ sid lane isPositive
    obtain ⟨entry, mem, _, rfl⟩ := holds.listed.complete sid lane isPositive
    have isBelow := below entry mem
    omega
  · refine fun below => ⟨Nat.zero_le required, fun entry mem => ?_⟩
    have stores := holds.listed.stores entry mem
    have isBelow := below entry.sid _ (stores.counted ▸ stores.positive)
    omega

/-- The range of lanes gets narrower around the live entries. -/
theorem Represents.narrow (represents : store.Represents usizeMax map) {required : Nat}
    (isBound : store.assoc.isBound = true) (fewer : required ≤ store.assoc.laneSlots)
    (enough : store.assoc.activeLaneSlots store.memory ≤ required) :
    store.shrinkLaneRange required = .ok { store with
        assoc := { store.assoc with laneSlots := required }
        laneEnd := store.laneBase + required } ∧
      ({ store with
        assoc := { store.assoc with laneSlots := required }
        laneEnd := store.laneBase + required } : LaneStore).Represents usizeMax map := by
  obtain ⟨front, back, holds⟩ := represents.holds
  have laneEnd := represents.laneEnd
  have block := represents.block isBound
  have lanes := block.lanes
  refine ⟨?_, ⟨⟨front, back, ⟨holds.laid.1, holds.laid.2⟩, holds.entries, ?_, holds.dead⟩, rfl,
      represents.laneBase, fun _ => ?_, fun isUnbound => ?_⟩⟩
  · rw [shrinkLaneRange, laneSlotCount, if_neg (by omega), Run.bind_ok, if_neg (by omega),
      if_pos isBound, AssocTable.shrinkLaneSlots, if_neg (by omega), Run.bind_ok]
    rfl
  · rw [AssocTable.activeLaneSlots, holds_filter holds, foldl_lanes_le] at enough
    exact ⟨fun entry mem => { holds.listed.stores entry mem with
      inRange := enough.2 entry mem },
      holds.listed.distinct, holds.listed.complete, holds.listed.faults⟩
  · exact ⟨⟨block.stored.1, block.stored.2⟩, block.aligned, block.positive, block.small,
      Nat.le_trans fewer lanes, block.fits⟩
  · exact absurd (isBound.symm.trans isUnbound) (by decide)

/-- What a release of storage may ask for: room for the live entries, and no more than there is. -/
structure Spares (store : LaneStore) (laneSlots assocSlots : Nat) : Prop where
  enoughSlots : store.assoc.activeEntryCount store.memory ≤ assocSlots
  fewerSlots : assocSlots ≤ store.assoc.assocSlots
  enoughLanes : store.assoc.activeLaneSlots store.memory ≤ laneSlots
  fewerLanes : laneSlots ≤ store.assoc.laneSlots
  noLanes : assocSlots = 0 → laneSlots = 0

/-- A release of storage keeps the map. -/
theorem Represents.reclaim (represents : store.Represents usizeMax map)
    (spares : store.Spares laneSlots assocSlots) :
    ∃ shrunk next, store.shrinkAssocTable usizeMax store.assoc.entrySids assocSlots = .ok shrunk ∧
      shrunk.shrinkLaneRange laneSlots = .ok next ∧ next.Represents usizeMax map := by
  have fewerSlots := spares.fewerSlots
  have laneEnd := represents.laneEnd
  have isShrunk : ∀ result, (if assocSlots = store.assoc.assocSlots then .ok store
      else if assocSlots = 0 then store.clearAssoc
      else store.shrinkInPlace usizeMax store.assoc.entrySids assocSlots) = result →
      store.shrinkAssocTable usizeMax store.assoc.entrySids assocSlots = result :=
    fun result isResult => by rwa [shrinkAssocTable, if_neg (by omega)]
  cases isBound : store.assoc.isBound with
  | false =>
    have isEmpty := represents.unbound isBound
    have noSlots : assocSlots = 0 := by
      rw [isEmpty] at fewerSlots
      exact Nat.le_zero.mp fewerSlots
    have noLanes := spares.noLanes noSlots
    have isEnd : store.laneEnd = store.laneBase + 0 := by rw [laneEnd, isEmpty]; rfl
    subst noSlots noLanes
    refine ⟨store, { store with laneEnd := store.laneBase + 0 },
      isShrunk _ (if_pos (by rw [isEmpty]; rfl)), ?_, ?_⟩
    · rw [shrinkLaneRange, laneSlotCount, if_neg (by omega), Run.bind_ok, if_neg (by omega),
        isBound]
      rfl
    · rw [← isEnd]
      exact represents
  | true =>
    by_cases same : assocSlots = store.assoc.assocSlots
    · obtain ⟨isNext, isHeld⟩ := represents.narrow isBound spares.fewerLanes spares.enoughLanes
      exact ⟨store, _, isShrunk _ (if_pos same), isNext, isHeld⟩
    by_cases noSlots : assocSlots = 0
    · subst noSlots
      obtain rfl := spares.noLanes rfl
      obtain ⟨isCleared, isHeld⟩ := represents.clear (Nat.le_zero.mp spares.enoughSlots)
      refine ⟨_, { store with assoc := .initEmpty, laneEnd := store.laneBase },
        isShrunk _ ((if_neg same).trans ((if_pos rfl).trans isCleared)), ?_, isHeld⟩
      rw [shrinkLaneRange, laneSlotCount, if_neg (by dsimp only; omega), Run.bind_ok,
        if_neg (Nat.not_lt_zero _)]
      rfl
    · obtain ⟨memory, isOk, isSmall, _⟩ := represents.shrink isBound (Nat.pos_of_ne_zero noSlots)
        (by omega) spares.enoughSlots
      obtain ⟨front, back, holds⟩ := represents.holds
      obtain ⟨newFront, newBack, newHolds⟩ := isSmall.holds
      have enoughLanes := (activeLaneSlots_le holds laneSlots).mp spares.enoughLanes
      obtain ⟨isNext, isHeld⟩ := isSmall.narrow isBound spares.fewerLanes
        ((activeLaneSlots_le newHolds laneSlots).mpr enoughLanes)
      exact ⟨_, _, isShrunk _ ((if_neg same).trans ((if_neg noSlots).trans isOk)), isNext, isHeld⟩

/-- The owner has moved the block of the table, with its bytes, to another place. -/
structure Moves (usizeMax : Nat) (store : LaneStore) (moved : Memory) (storage : Nat) : Prop where
  isBound : store.assoc.isBound = true
  nonnull : storage ≠ 0
  aligned : storage % AssocTable.storageAlign = 0
  fits : storage + AssocTable.blockBytes store.assoc.assocSlots ≤ usizeMax
  bytes : SameBytes store.memory store.assoc.entrySids moved storage
    (AssocTable.blockBytes store.assoc.assocSlots)

theorem Represents.relocate (represents : store.Represents usizeMax map) {moved : Memory}
    {storage : Nat} (moves : store.Moves usizeMax moved storage) :
    store.assoc.relocateStorage usizeMax storage = .ok (.ofBlock storage store.assoc.laneBase
        store.assoc.laneSlots store.assoc.assocSlots) ∧
      ({ store with
          memory := moved
          assoc := .ofBlock storage store.assoc.laneBase store.assoc.laneSlots
            store.assoc.assocSlots } : LaneStore).Represents usizeMax map := by
  obtain ⟨front, back, holds⟩ := represents.holds
  have block := represents.block moves.isBound
  have isEntries : (AssocTable.ofBlock storage store.assoc.laneBase store.assoc.laneSlots
      store.assoc.assocSlots).entries moved = front ++ back :=
    (AssocTable.entries_relocate block.stored (AssocTable.ofBlock_stored ..) rfl
      moves.bytes).trans holds.entries
  constructor
  · rw [AssocTable.relocateStorage, AssocTable.commitStorage_eq moves.aligned block.positive
      block.small block.lanes moves.fits]
  · rw [represents.laneEnd, ← represents.laneBase moves.isBound]
    exact represents_ofBlock moves.nonnull moves.aligned block.positive block.small block.lanes
      moves.fits isEntries holds.listed holds.dead

/-- A table without storage does not depend on the memory. -/
theorem Represents.ofUnbound (represents : store.Represents usizeMax map)
    (isUnbound : store.assoc.isBound = false) (memory : Memory) :
    ({ store with memory } : LaneStore).Represents usizeMax map := by
  obtain ⟨front, back, holds⟩ := represents.holds
  refine represents.withMemory ⟨holds.laid, ?_, holds.listed, holds.dead⟩
  have isEntries := holds.entries
  rw [represents.unbound isUnbound] at isEntries ⊢
  exact isEntries

end LaneStore

end Hibana
