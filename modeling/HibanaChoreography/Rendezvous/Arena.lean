/-
This file says what the slab of a rendezvous holds: the slots of the leases, the
attachments of sessions to lanes, and the resolvers.

The three tables lie apart below the image frontier and the leases apart above it. A
compaction keeps what the slab holds; it only moves the tables and lowers the
frontier to the end of the best order.
-/

import HibanaChoreography.Rendezvous.AssociationStorage
import HibanaChoreography.Rendezvous.Compaction
import Mathlib.Data.List.Pairwise
import Mathlib.Order.Bounds.Basic

namespace Hibana

open Outcome ByteMemory Packing ResidentSidecar List

/-! ### Tables -/

/-- A table of records in a block: the block is filled by them, and there is none without
records. -/
structure Table {Value : Type} (layout : TableLayout Value) (memory : Memory) (storage : Sidecar)
    (values : List Value) : Prop where
  null : storage.ptr = 0 ↔ values = []
  bytes : storage.bytes = values.length * layout.codec.size
  records : array layout.codec memory storage.ptr values.length = values

/-- A block at its place after a move, with its bytes. -/
structure Moved (memory : Memory) (old : Sidecar) (after : Memory) (new : Sidecar) : Prop where
  null : new.ptr = 0 ↔ old.ptr = 0
  bytes : new.bytes = old.bytes
  same : SameBytes memory old.ptr after new.ptr old.bytes

namespace Table

variable {Value : Type} {layout : TableLayout Value} {memory after : Memory}
  {storage new : Sidecar} {values : List Value}

theorem moved (table : Table layout memory storage values)
    (isMoved : Moved memory storage after new) :
    Table layout after new values where
  null := isMoved.null.trans table.null
  bytes := isMoved.bytes.trans table.bytes
  records := by
    refine (array_congr ?_).trans table.records
    rw [← table.bytes]
    exact isMoved.same

theorem filled (table : Table layout memory storage values) (some : values ≠ []) :
    layout.codec.size ≤ storage.bytes := by
  rw [table.bytes]
  exact Nat.le_mul_of_pos_left _ (length_pos_of_ne_nil some)

theorem isEmpty (table : Table layout memory storage values) :
    storage.isEmpty = .ok values.isEmpty := by
  rw [Sidecar.isEmpty]
  cases values with
  | nil =>
    have isBytes := table.bytes
    rw [length_nil, Nat.zero_mul] at isBytes
    rw [if_pos (table.null.mpr rfl), isBytes]
    rfl
  | cons first rest =>
    have filled := table.filled (cons_ne_nil _ _)
    have pos := layout.filled
    rw [if_neg fun isNull => cons_ne_nil _ _ (table.null.mp isNull), if_neg (by omega)]
    rfl

theorem recordCount (table : Table layout memory storage values) :
    Rendezvous.recordCount layout storage = .ok values.length := by
  rw [Rendezvous.recordCount, table.isEmpty, Run.bind_ok]
  cases isNil : values with
  | nil => rfl
  | cons first rest =>
    have pos := layout.filled
    rw [isEmpty_cons, if_neg Bool.false_ne_true, table.bytes, if_neg, Nat.mul_div_cancel _
      pos, isNil]
    · rfl
    · rw [Nat.mul_mod_left]
      omega

end Table

variable {memory after : Memory} {old new : Sidecar}

theorem Moved.isEmpty (isMoved : Moved memory old after new) : new.isEmpty = old.isEmpty := by
  rw [Sidecar.isEmpty, Sidecar.isEmpty, isMoved.bytes]
  simp only [isMoved.null]

variable {Value : Type}

/-- A block has as many records at its new place. -/
theorem Moved.recordCount (isMoved : Moved memory old after new) (layout : TableLayout Value) :
    Rendezvous.recordCount layout new = Rendezvous.recordCount layout old := by
  rw [Rendezvous.recordCount, Rendezvous.recordCount, isMoved.isEmpty, isMoved.bytes]

/-- A block is as large as its records, and only the empty block has none. -/
theorem recordCount_spec {layout : TableLayout Value} {storage : Sidecar} {count : Nat}
    (isCount : Rendezvous.recordCount layout storage = .ok count) :
    storage.bytes = count * layout.codec.size ∧ (storage = .empty ∨ storage.bytes ≠ 0) := by
  obtain ⟨isEmpty, isOk, isCount⟩ := Run.of_bind isCount
  unfold Sidecar.isEmpty at isOk
  split at isOk
  · rename_i isNull
    split at isOk
    · cases isOk
    · rename_i noBytes
      cases isOk
      cases isCount
      have isZero := not_not.mp noBytes
      exact ⟨by omega, .inl (congrArg₂ Sidecar.mk isNull isZero)⟩
  · split at isOk
    · cases isOk
    · rename_i filled
      cases isOk
      rw [if_neg Bool.false_ne_true] at isCount
      split at isCount
      · cases isCount
      · rename_i whole
        cases isCount
        have divides := Nat.dvd_of_mod_eq_zero (not_not.mp (not_or.mp whole).2)
        exact ⟨(Nat.div_mul_cancel divides).symm, .inr filled⟩

/-- A block that is not empty has room for a record. -/
theorem align_le_of_recordCount {layout : TableLayout Value} {storage : Sidecar} {count : Nat}
    (isCount : Rendezvous.recordCount layout storage = .ok count) (live : storage ≠ .empty) :
    layout.align ≤ storage.bytes := by
  obtain ⟨isBytes, isEmpty | filled⟩ := recordCount_spec isCount
  · exact absurd isEmpty live
  · refine Nat.le_of_dvd (Nat.pos_of_ne_zero filled) (layout.divides.trans ?_)
    exact isBytes ▸ Nat.dvd_mul_left _ _

/-! ### The blocks by their owners -/

namespace Rendezvous

variable {Key Ref : Type} {platform : Platform Key Ref} {rv : Rendezvous}

/-- The block of an owner. -/
def storageOf (rv : Rendezvous) : ResidentSidecarKind → Sidecar
  | .endpointLeases => rv.endpointLeaseStorage
  | .associations => rv.assocStorage
  | .resolvers => rv.resolverStorage

/-- The alignment of the blocks of an owner. -/
def alignOf (platform : Platform Key Ref) : ResidentSidecarKind → Nat
  | .endpointLeases => platform.leases.align
  | .associations => AssocTable.storageAlign
  | .resolvers => platform.resolvers.align

def residentOf (platform : Platform Key Ref) (rv : Rendezvous) (kind : ResidentSidecarKind) :
    ResidentSidecar := ⟨kind, rv.storageOf kind, alignOf platform kind⟩

theorem alignOf_isPower (kind : ResidentSidecarKind) :
    Layout.isPowerOfTwo (alignOf platform kind) = true := by
  cases kind with
  | endpointLeases => exact platform.leases.isPower
  | associations =>
    show Layout.isPowerOfTwo 4 = true
    decide
  | resolvers => exact platform.resolvers.isPower

variable {resident : ResidentSidecar}

theorem mem_liveSidecars :
    resident ∈ rv.liveSidecars platform ↔ ∃ kind, resident = residentOf platform rv kind := by
  constructor
  · intro mem
    simp only [liveSidecars, mem_cons, not_mem_nil, or_false] at mem
    rcases mem with rfl | rfl | rfl
    · exact ⟨.endpointLeases, rfl⟩
    · exact ⟨.associations, rfl⟩
    · exact ⟨.resolvers, rfl⟩
  · rintro ⟨kind, rfl⟩
    cases kind <;> simp [liveSidecars, residentOf, storageOf, alignOf]

/-- A relation between the blocks of two owners, for all pairs of the list. -/
theorem pairwise_liveSidecars {related : ResidentSidecar → ResidentSidecar → Prop}
    (each : ∀ first second, first ≠ second →
      related (residentOf platform rv first) (residentOf platform rv second)) :
    (rv.liveSidecars platform).Pairwise related := by
  have isMap : rv.liveSidecars platform = [ResidentSidecarKind.endpointLeases, .associations,
    .resolvers].map (residentOf platform rv) := rfl
  rw [isMap, pairwise_map]
  have distinct : [ResidentSidecarKind.endpointLeases, .associations, .resolvers].Pairwise
    (· ≠ ·) := by decide
  exact distinct.imp fun {first second} ne => each first second ne

/-! ### New places -/

/-- The owner of a moved block points to its new place; nothing is checked. -/
def rebindTo (rv : Rendezvous) (resident : ResidentSidecar) : Rendezvous :=
  match resident.kind with
  | .endpointLeases => { rv with endpointLeaseStorage := resident.storage }
  | .associations =>
    { rv with
      assocStorage := resident.storage
      lanes := { rv.lanes with
        assoc := .ofBlock resident.ptr rv.lanes.assoc.laneBase rv.lanes.assoc.laneSlots
          rv.lanes.assoc.assocSlots } }
  | .resolvers => { rv with resolverStorage := resident.storage }

theorem storageOf_rebindTo (rv : Rendezvous) (resident : ResidentSidecar)
    (kind : ResidentSidecarKind) : (rv.rebindTo resident).storageOf kind =
      if kind = resident.kind then resident.storage else rv.storageOf kind := by
  unfold rebindTo
  cases resident.kind <;> cases kind <;> rfl

theorem lanes_rebindTo (rv : Rendezvous) (isAssoc : resident.kind = .associations) :
    (rv.rebindTo resident).lanes = { rv.lanes with
        assoc := .ofBlock resident.ptr rv.lanes.assoc.laneBase rv.lanes.assoc.laneSlots
          rv.lanes.assoc.assocSlots } := by
  rw [rebindTo, isAssoc]

theorem lanes_rebindTo_of_ne (rv : Rendezvous) (notAssoc : resident.kind ≠ .associations) :
    (rv.rebindTo resident).lanes = rv.lanes := by
  unfold rebindTo
  cases isKind : resident.kind with
  | endpointLeases | resolvers => rfl
  | associations => exact absurd isKind notAssoc

/-- What a new block needs so that its owner takes it. -/
structure Rebindable (platform : Platform Key Ref) (rv : Rendezvous) (resident : ResidentSidecar) :
    Prop where
  live : resident.storage.isEmpty = .ok false
  assoc : resident.kind = .associations →
    rv.lanes.relocateAssoc platform.usizeMax resident.ptr = .ok
      { rv.lanes with
        assoc := .ofBlock resident.ptr rv.lanes.assoc.laneBase rv.lanes.assoc.laneSlots
          rv.lanes.assoc.assocSlots }
  resolvers : resident.kind = .resolvers → ∃ count,
    recordCount platform.resolvers resident.storage = .ok count ∧
    recordCount platform.resolvers (rv.storageOf .resolvers) = .ok count

theorem Rebindable.rebind (rebindable : Rebindable platform rv resident) :
    rv.rebind platform resident = .ok (rv.rebindTo resident) := by
  rw [Rendezvous.rebind, rebindable.live, Run.bind_ok, if_neg Bool.false_ne_true, rebindTo]
  cases isKind : resident.kind with
  | endpointLeases => rfl
  | associations =>
    rw [rebindable.assoc isKind]
    rfl
  | resolvers =>
    obtain ⟨count, isNew, isOld⟩ := rebindable.resolvers isKind
    rw [storageOf] at isOld
    rw [isNew, Run.bind_ok, isOld, Run.bind_ok, if_neg (not_not_intro rfl)]
    rfl

/-- The other owners are not concerned. -/
theorem Rebindable.other {other : ResidentSidecar} (rebindable : Rebindable platform rv other)
    (ne : other.kind ≠ resident.kind) : Rebindable platform (rv.rebindTo resident) other := by
  refine ⟨rebindable.live, fun isAssoc => ?_, fun isResolvers => ?_⟩
  · rw [lanes_rebindTo_of_ne rv fun isSame => ne (isAssoc.trans isSame.symm)]
    exact rebindable.assoc isAssoc
  · rw [storageOf_rebindTo, if_neg fun isSame => ne (isResolvers.trans isSame)]
    exact rebindable.resolvers isResolvers

section Fold

variable {placed : List ResidentSidecar}

theorem rebind_placed (distinct : (placed.map kind).Nodup)
    (rebindable : ∀ resident ∈ placed, Rebindable platform rv resident) :
    placed.foldlM (Rendezvous.rebind platform) rv = .ok (placed.foldl rebindTo rv) := by
  induction placed generalizing rv with
  | nil => rfl
  | cons resident rest hyp =>
    rw [map_cons, nodup_cons] at distinct
    rw [forall_mem_cons] at rebindable
    rw [foldlM_cons, rebindable.1.rebind, Run.bind_ok, foldl_cons]
    refine hyp distinct.2 fun other mem => (rebindable.2 other mem).other fun same => ?_
    exact distinct.1 (mem_map.mpr ⟨other, mem, same⟩)

theorem rebind_idle {idle : List ResidentSidecar}
    (isIdle : ∀ resident ∈ idle, resident.storage = .empty) :
    idle.foldlM (Rendezvous.rebind platform) rv = .ok rv := by
  induction idle with
  | nil => rfl
  | cons resident rest hyp =>
    rw [forall_mem_cons] at isIdle
    rw [foldlM_cons, Rendezvous.rebind, isIdle.1]
    exact hyp isIdle.2

/-- An owner without a moved block keeps its block. -/
theorem storageOf_foldl_of_ne {kind : ResidentSidecarKind}
    (others : ∀ resident ∈ placed, resident.kind ≠ kind) :
    (placed.foldl rebindTo rv).storageOf kind = rv.storageOf kind := by
  induction placed generalizing rv with
  | nil => rfl
  | cons resident rest hyp =>
    rw [forall_mem_cons] at others
    rw [foldl_cons, hyp others.2, storageOf_rebindTo, if_neg others.1.symm]

theorem storageOf_foldl (distinct : (placed.map kind).Nodup) {resident : ResidentSidecar}
    (mem : resident ∈ placed) :
    (placed.foldl rebindTo rv).storageOf resident.kind = resident.storage := by
  induction placed generalizing rv with
  | nil => cases mem
  | cons first rest hyp =>
    rw [map_cons, nodup_cons] at distinct
    rcases mem_cons.mp mem with rfl | inRest
    · rw [foldl_cons, storageOf_foldl_of_ne, storageOf_rebindTo, if_pos rfl]
      exact fun other inRest same => distinct.1 (mem_map.mpr ⟨other, inRest, same⟩)
    · exact hyp distinct.2 inRest

theorem lanes_foldl_of_ne (others : ∀ resident ∈ placed, resident.kind ≠ .associations) :
    (placed.foldl rebindTo rv).lanes = rv.lanes := by
  induction placed generalizing rv with
  | nil => rfl
  | cons resident rest hyp =>
    rw [forall_mem_cons] at others
    rw [foldl_cons, hyp others.2, lanes_rebindTo_of_ne rv others.1]

theorem lanes_foldl (distinct : (placed.map kind).Nodup) {resident : ResidentSidecar}
    (mem : resident ∈ placed) (isAssoc : resident.kind = .associations) :
    (placed.foldl rebindTo rv).lanes = { rv.lanes with
        assoc := .ofBlock resident.ptr rv.lanes.assoc.laneBase rv.lanes.assoc.laneSlots
          rv.lanes.assoc.assocSlots } := by
  induction placed generalizing rv with
  | nil => cases mem
  | cons first rest hyp =>
    rw [map_cons, nodup_cons] at distinct
    rcases mem_cons.mp mem with rfl | inRest
    · rw [foldl_cons, lanes_foldl_of_ne, lanes_rebindTo rv isAssoc]
      exact fun other inRest same => distinct.1
        (mem_map.mpr ⟨other, inRest, same.trans isAssoc.symm⟩)
    · have ne : first.kind ≠ .associations := fun same => distinct.1
        (mem_map.mpr ⟨resident, inRest, isAssoc.trans same.symm⟩)
      rw [foldl_cons, hyp distinct.2 inRest, lanes_rebindTo_of_ne rv ne]

/-- Nothing else of a rendezvous changes. -/
theorem foldl_rebindTo_fields (rv : Rendezvous) (placed : List ResidentSidecar) :
    (placed.foldl rebindTo rv).slabPtr = rv.slabPtr ∧
      (placed.foldl rebindTo rv).slabLen = rv.slabLen ∧
      (placed.foldl rebindTo rv).endpointLeaseGeneration = rv.endpointLeaseGeneration := by
  induction placed generalizing rv with
  | nil => exact ⟨rfl, rfl, rfl⟩
  | cons resident rest hyp =>
    rw [foldl_cons]
    obtain ⟨samePtr, sameLen, sameGeneration⟩ := hyp (rv.rebindTo resident)
    rw [samePtr, sameLen, sameGeneration]
    unfold rebindTo
    cases resident.kind <;> exact ⟨rfl, rfl, rfl⟩

end Fold

end Rendezvous

/-! ### What a slab holds -/

/-- The block of an association table. -/
def AssocTable.block (table : AssocTable) : Sidecar :=
  if table.isBound then ⟨table.entrySids, AssocTable.blockBytes table.assocSlots⟩ else .empty

theorem AssocTable.block_ofBlock {storage : Nat} (nonnull : storage ≠ 0)
    (laneBase laneSlots assocSlots : Nat) :
    (AssocTable.ofBlock storage laneBase laneSlots assocSlots).block =
      ⟨storage, AssocTable.blockBytes assocSlots⟩ :=
  if_pos (decide_eq_true nonnull)

theorem AssocTable.isBound_iff {table : AssocTable} :
    table.isBound = true ↔ table.block ≠ .empty := by
  cases isBound : table.isBound with
  | false => simp [AssocTable.block, isBound]
  | true =>
    refine iff_of_true rfl fun isEmpty => ?_
    rw [AssocTable.block, if_pos isBound] at isEmpty
    exact of_decide_eq_true isBound (congrArg Sidecar.ptr isEmpty)

/-- The store with the range of lanes that its table has. -/
def LaneStore.tableRange (store : LaneStore) : LaneStore :=
  { store with laneEnd := store.laneBase + store.assoc.laneSlots }

/-- The contents of a slab: the slots of the leases, each with the alignment that was asked for,
the attachments, the resolvers, and the last generation of a lease. -/
structure Contents (Key Ref : Type) where
  leases : List (EndpointLeaseSlot × Nat)
  attachments : Attachments
  resolvers : List (Option (Key × Ref))
  generation : UInt32

/-- The offsets of a lease. -/
def leaseStart (lease : EndpointLeaseSlot × Nat) : Nat := lease.1.offset.toNat

def leaseEnd (lease : EndpointLeaseSlot × Nat) : Nat := lease.1.offset.toNat + lease.1.len.toNat

/-- An occupied lease: not empty, above the image frontier, inside the slab, and aligned. -/
structure LeaseFits (rv : Rendezvous) (lease : EndpointLeaseSlot × Nat) : Prop where
  filled : leaseStart lease < leaseEnd lease
  low : rv.imageFrontier ≤ leaseStart lease
  high : leaseEnd lease ≤ rv.slabLen
  aligned : (rv.slabPtr + leaseStart lease) % lease.2 = 0

/-- Two leases that do not overlap. -/
def LeasesApart (first second : EndpointLeaseSlot × Nat) : Prop :=
  first.1.isOccupied = true → second.1.isOccupied = true →
    leaseEnd first ≤ leaseStart second ∨ leaseEnd second ≤ leaseStart first

instance : Std.Symm LeasesApart :=
  ⟨fun _ _ apart isSecond isFirst => (apart isFirst isSecond).symm⟩

namespace Rendezvous

variable {Key Ref : Type} {platform : Platform Key Ref} {rv : Rendezvous}
  {contents : Contents Key Ref}

structure Holds (platform : Platform Key Ref) (rv : Rendezvous) (contents : Contents Key Ref) :
    Prop where
  resting : Resting platform rv
  small : rv.imageFrontier ≤ u32Max
  leases : Table platform.leases rv.lanes.memory rv.endpointLeaseStorage
    (contents.leases.map Prod.fst)
  leaseCount : contents.leases.length ≤ 65536
  fits : ∀ lease ∈ contents.leases, lease.1.isOccupied = true → LeaseFits rv lease
  apart : contents.leases.Pairwise LeasesApart
  lanes : rv.lanes.tableRange.Represents platform.usizeMax contents.attachments
  assoc : rv.assocStorage = rv.lanes.assoc.block
  resolvers : Table platform.resolvers rv.lanes.memory rv.resolverStorage contents.resolvers
  generation : rv.endpointLeaseGeneration = contents.generation

theorem le_leaseFloor (slots : List EndpointLeaseSlot) (start bound : Nat) :
    bound ≤ slots.foldl (fun floor slot =>
      if slot.isOccupied ∧ slot.len ≠ 0 ∧ slot.offset.toNat < floor then slot.offset.toNat
      else floor) start ↔
    bound ≤ start ∧ ∀ slot ∈ slots, slot.isOccupied = true → slot.len ≠ 0 →
      bound ≤ slot.offset.toNat := by
  induction slots generalizing start with
  | nil => simp
  | cons slot rest hyp =>
    rw [foldl_cons, hyp, forall_mem_cons]
    by_cases lower : slot.isOccupied = true ∧ slot.len ≠ 0 ∧ slot.offset.toNat < start
    · rw [if_pos lower]
      constructor
      · rintro ⟨below, others⟩
        exact ⟨Nat.le_trans below (Nat.le_of_lt lower.2.2), fun _ _ => below, others⟩
      · rintro ⟨_, below, others⟩
        exact ⟨below lower.1 lower.2.1, others⟩
    · rw [if_neg lower]
      constructor
      · rintro ⟨below, others⟩
        refine ⟨below, fun occupied filled => Nat.not_lt.mp fun above => ?_, others⟩
        exact lower ⟨occupied, filled, Nat.lt_of_lt_of_le above below⟩
      · rintro ⟨below, _, others⟩
        exact ⟨below, others⟩

namespace Holds

variable (holds : Holds platform rv contents)

include holds

theorem slotCount : rv.endpointLeaseSlotCount platform = .ok contents.leases.length := by
  have count := holds.leaseCount
  rw [endpointLeaseSlotCount, holds.leases.recordCount, Run.bind_ok, length_map, if_pos]
  · rfl
  · exact decide_eq_true (by omega)

theorem slots : rv.endpointLeaseSlots platform = .ok (contents.leases.map Prod.fst) := by
  have records := holds.leases.records
  rw [length_map] at records
  rw [endpointLeaseSlots, holds.slotCount, Run.bind_ok, records]
  rfl

/-- The floor of the leases is above every block of the tables. -/
theorem storageFloor : ∃ floor, rv.endpointStorageFloor platform = .ok floor ∧
    rv.imageFrontier ≤ floor ∧ floor ≤ rv.slabLen ∧
    ∀ lease ∈ contents.leases, lease.1.isOccupied = true → floor ≤ leaseStart lease := by
  refine ⟨_, by rw [endpointStorageFloor, holds.slots]; rfl, ?_, ?_, ?_⟩
  · rw [le_leaseFloor, forall_mem_map]
    exact ⟨holds.resting.frontier, fun lease mem occupied _ =>
      (holds.fits lease mem occupied).low⟩
  · exact ((le_leaseFloor _ _ _).mp le_rfl).1
  · intro lease mem occupied
    have isFloor := ((le_leaseFloor _ rv.slabLen _).mp le_rfl).2 lease.1
      (mem_map_of_mem mem) occupied
    refine isFloor fun isZero => ?_
    have filled := (holds.fits lease mem occupied).filled
    rw [leaseStart, leaseEnd, isZero] at filled
    exact absurd filled (Nat.lt_irrefl _)

end Holds

/-! ### Compaction -/

/-- The blocks of a rendezvous at other places: each has its owner, its size and its bytes, and
they lie behind each other below an offset. -/
structure Replaced (platform : Platform Key Ref) (rv : Rendezvous) (after : Memory) (stop : Nat)
    (placed : List ResidentSidecar) : Prop where
  distinct : (placed.map kind).Nodup
  origin : ∀ resident ∈ placed, ∃ kind, isLive (residentOf platform rv kind) = true ∧
    resident.shape = (residentOf platform rv kind).shape
  carried : ∀ kind, isLive (residentOf platform rv kind) = true →
    ∃ target ∈ placed, target.shape = (residentOf platform rv kind).shape ∧
      SameBytes rv.lanes.memory (rv.storageOf kind).ptr after target.ptr
        (rv.storageOf kind).bytes
  order : InOrder bytes ptr rv.slabPtr (rv.slabPtr + stop) placed
  aligned : ∀ resident ∈ placed, resident.ptr % resident.align = 0

/-- The rendezvous with its blocks at other places. -/
def replaced (rv : Rendezvous) (after : Memory) (placed : List ResidentSidecar) : Rendezvous :=
  placed.foldl rebindTo { rv with lanes := { rv.lanes with memory := after } }

theorem isLive_residentOf {kind : ResidentSidecarKind} :
    isLive (residentOf platform rv kind) = true ↔ rv.storageOf kind ≠ .empty :=
  decide_eq_true_iff

namespace Replaced

variable {after : Memory} {stop : Nat} {placed : List ResidentSidecar}
  (replacement : Replaced platform rv after stop placed)

include replacement

/-- The new block of an owner is one of the list. -/
theorem storageOf_mem {kind : ResidentSidecarKind} (live : rv.storageOf kind ≠ .empty) :
    ∃ target ∈ placed, (rv.replaced after placed).storageOf kind = target.storage ∧
      target.shape = (residentOf platform rv kind).shape ∧
      SameBytes rv.lanes.memory (rv.storageOf kind).ptr after target.ptr
        (rv.storageOf kind).bytes := by
  obtain ⟨target, inPlaced, sameShape, same⟩ :=
    replacement.carried kind (isLive_residentOf.mpr live)
  refine ⟨target, inPlaced, ?_, sameShape, same⟩
  have sameKind : target.kind = kind := congrArg Prod.fst sameShape
  rw [← sameKind]
  exact storageOf_foldl replacement.distinct inPlaced

theorem storageOf_empty {kind : ResidentSidecarKind} (isEmpty : rv.storageOf kind = .empty) :
    (rv.replaced after placed).storageOf kind = .empty := by
  rw [replaced, storageOf_foldl_of_ne]
  · cases kind <;> exact isEmpty
  · intro resident mem same
    obtain ⟨other, live, sameShape⟩ := replacement.origin resident mem
    have sameKind : resident.kind = other := congrArg Prod.fst sameShape
    rw [← sameKind, same] at live
    exact isLive_residentOf.mp live isEmpty

theorem moved (nonnull : 0 < rv.slabPtr)
    (old : ∀ kind, rv.storageOf kind ≠ .empty → (rv.storageOf kind).ptr ≠ 0)
    (kind : ResidentSidecarKind) :
    Moved rv.lanes.memory (rv.storageOf kind) after
      ((rv.replaced after placed).storageOf kind) := by
  by_cases isEmpty : rv.storageOf kind = .empty
  · rw [replacement.storageOf_empty isEmpty, isEmpty]
    exact ⟨Iff.rfl, rfl, fun index inside => absurd inside (Nat.not_lt_zero index)⟩
  · obtain ⟨target, inPlaced, isStorage, sameShape, same⟩ := replacement.storageOf_mem isEmpty
    have low : rv.slabPtr ≤ target.ptr := (replacement.order.mem inPlaced).1
    rw [isStorage]
    refine ⟨iff_of_false (fun isNull => ?_) (old kind isEmpty), congrArg (·.2.1) sameShape, same⟩
    have isZero : target.ptr = 0 := isNull
    omega

/-- The lanes only change by the new memory and the new block of their table. -/
theorem lanes_of_live (live : rv.storageOf .associations ≠ .empty) :
    (rv.replaced after placed).lanes = { rv.lanes with
        memory := after
        assoc := .ofBlock ((rv.replaced after placed).storageOf .associations).ptr
          rv.lanes.assoc.laneBase rv.lanes.assoc.laneSlots rv.lanes.assoc.assocSlots } := by
  obtain ⟨target, inPlaced, isStorage, sameShape, _⟩ := replacement.storageOf_mem live
  rw [isStorage]
  exact lanes_foldl replacement.distinct inPlaced (congrArg Prod.fst sameShape)

theorem lanes_of_empty (isEmpty : rv.storageOf .associations = .empty) :
    (rv.replaced after placed).lanes = { rv.lanes with memory := after } := by
  refine lanes_foldl_of_ne fun resident mem isAssoc => ?_
  obtain ⟨other, live, sameShape⟩ := replacement.origin resident mem
  have sameKind : resident.kind = other := congrArg Prod.fst sameShape
  rw [← sameKind, isAssoc] at live
  exact isLive_residentOf.mp live isEmpty

/-- A block that is live behind the moves is one of the list. -/
theorem residentOf_mem (before : Resting platform rv) {kind : ResidentSidecarKind}
    (live : (rv.replaced after placed).storageOf kind ≠ .empty) :
    residentOf platform (rv.replaced after placed) kind ∈ placed ∧
      Alignable (residentOf platform (rv.replaced after placed) kind) := by
  have wasLive : rv.storageOf kind ≠ .empty := fun isEmpty =>
    live (replacement.storageOf_empty isEmpty)
  obtain ⟨target, inPlaced, isStorage, sameShape, _⟩ := replacement.storageOf_mem wasLive
  have isAlignable := before.alignable _ (mem_liveSidecars.mpr ⟨kind, rfl⟩)
    (isLive_residentOf.mpr wasLive)
  have sameKind : target.kind = kind := congrArg Prod.fst sameShape
  have sameAlign : target.align = alignOf platform kind := congrArg (·.2.2) sameShape
  have isTarget : residentOf platform (rv.replaced after placed) kind = target := by
    rw [residentOf, isStorage, ← sameAlign, ← sameKind]
  have sameBytes : target.bytes = (residentOf platform rv kind).bytes :=
    congrArg (·.2.1) sameShape
  rw [isTarget]
  refine ⟨inPlaced, ?_, ?_⟩
  · rw [sameAlign]
    exact isAlignable.isPower
  · rw [sameAlign, sameBytes]
    exact isAlignable.small

/-- The blocks rest at their new places. -/
theorem resting (before : Resting platform rv) (below : stop ≤ rv.imageFrontier) :
    Resting platform { rv.replaced after placed with imageFrontier := stop } := by
  obtain ⟨samePtr, sameLen, _⟩ :=
    foldl_rebindTo_fields { rv with lanes := { rv.lanes with memory := after } } placed
  change (rv.replaced after placed).slabPtr = rv.slabPtr at samePtr
  change (rv.replaced after placed).slabLen = rv.slabLen at sameLen
  have frontier := before.frontier
  have live : ∀ resident ∈ liveSidecars platform
      { rv.replaced after placed with imageFrontier := stop }, isLive resident = true →
      resident ∈ placed ∧ Alignable resident := by
    intro resident mem isLive
    obtain ⟨kind, rfl⟩ := mem_liveSidecars.mp mem
    exact replacement.residentOf_mem before (isLive_residentOf.mp isLive)
  refine ⟨⟨?_, ?_⟩, ?_, fun resident mem isLive => ?_, fun resident mem isLive => ?_,
    fun resident mem isLive => ?_, fun resident mem isLive => (live resident mem isLive).2,
    pairwise_liveSidecars fun first second ne => ?_⟩
  · exact samePtr ▸ before.space.nonnull
  · show (rv.replaced after placed).slabPtr + (rv.replaced after placed).slabLen ≤ _
    rw [samePtr, sameLen]
    exact before.space.fits
  · show stop ≤ (rv.replaced after placed).slabLen
    omega
  · show (rv.replaced after placed).slabPtr ≤ resident.ptr
    rw [samePtr]
    exact (replacement.order.mem (live resident mem isLive).1).1
  · show resident.ptr + resident.bytes ≤ (rv.replaced after placed).slabPtr + stop
    rw [samePtr]
    exact (replacement.order.mem (live resident mem isLive).1).2
  · exact replacement.aligned resident (live resident mem isLive).1
  · show ((rv.replaced after placed).storageOf first).ptr +
        ((rv.replaced after placed).storageOf first).bytes ≤
        ((rv.replaced after placed).storageOf second).ptr ∨
      ((rv.replaced after placed).storageOf second).ptr +
        ((rv.replaced after placed).storageOf second).bytes ≤
        ((rv.replaced after placed).storageOf first).ptr
    by_cases firstLive : (rv.replaced after placed).storageOf first = .empty
    · rw [firstLive]
      exact .inl (Nat.zero_le _)
    by_cases secondLive : (rv.replaced after placed).storageOf second = .empty
    · rw [secondLive]
      exact .inr (Nat.zero_le _)
    exact replacement.order.apart (replacement.residentOf_mem before firstLive).1
      (replacement.residentOf_mem before secondLive).1 fun same =>
        ne (congrArg ResidentSidecar.kind same)

theorem memory_eq : (rv.replaced after placed).lanes.memory = after := by
  by_cases isEmpty : rv.storageOf .associations = .empty
  · rw [replacement.lanes_of_empty isEmpty]
  · rw [replacement.lanes_of_live isEmpty]

end Replaced

theorem Resting.ptr_ne_zero (resting : Resting platform rv) {kind : ResidentSidecarKind}
    (live : rv.storageOf kind ≠ .empty) : (rv.storageOf kind).ptr ≠ 0 := by
  have low : rv.slabPtr ≤ (rv.storageOf kind).ptr :=
    resting.low _ (mem_liveSidecars.mpr ⟨kind, rfl⟩) (isLive_residentOf.mpr live)
  have nonnull := resting.space.nonnull
  omega

section Compaction

variable {after : Memory} {stop : Nat} {placed : List ResidentSidecar}
  {slots : List EndpointLeaseSlot}

/-- The owners of the blocks: each one knows its block, and no lease starts below the image
frontier. -/
structure Owners (platform : Platform Key Ref) (rv : Rendezvous) (slots : List EndpointLeaseSlot) :
    Prop where
  small : rv.imageFrontier ≤ u32Max
  isSlots : rv.endpointLeaseSlots platform = .ok slots
  above : ∀ slot ∈ slots, slot.isOccupied = true → rv.imageFrontier ≤ slot.offset.toNat
  resolvers : ∃ count, recordCount platform.resolvers rv.resolverStorage = .ok count
  assoc : rv.assocStorage = rv.lanes.assoc.block
  table : rv.lanes.assoc.isBound = true → 0 < rv.lanes.assoc.assocSlots ∧
    rv.lanes.assoc.assocSlots ≤ 65535 ∧ rv.lanes.assoc.laneSlots ≤ 65535

theorem Holds.owners (holds : Holds platform rv contents) :
    Owners platform rv (contents.leases.map Prod.fst) := by
  refine ⟨holds.small, holds.slots, ?_, ⟨_, holds.resolvers.recordCount⟩, holds.assoc,
    fun isBound => ?_⟩
  · rw [forall_mem_map]
    exact fun lease mem occupied => (holds.fits lease mem occupied).low
  · have block := holds.lanes.block isBound
    exact ⟨block.positive, block.small, block.lanes⟩

section Owned

variable (owners : Owners platform rv slots)

include owners

theorem Owners.block (live : rv.storageOf .associations ≠ .empty) :
    rv.lanes.assoc.isBound = true ∧ rv.storageOf .associations =
      ⟨rv.lanes.assoc.entrySids, AssocTable.blockBytes rv.lanes.assoc.assocSlots⟩ := by
  have isBlock : rv.storageOf .associations = rv.lanes.assoc.block := owners.assoc
  have isBound := AssocTable.isBound_iff.mpr (isBlock ▸ live)
  rw [AssocTable.block, if_pos isBound] at isBlock
  exact ⟨isBound, isBlock⟩

/-- A block has room for a record of its owner. -/
theorem Owners.alignable {kind : ResidentSidecarKind} (live : rv.storageOf kind ≠ .empty) :
    Alignable (residentOf platform rv kind) := by
  refine ⟨alignOf_isPower kind, ?_⟩
  cases kind with
  | endpointLeases =>
    obtain ⟨_, isSlots, _⟩ := Run.of_bind owners.isSlots
    obtain ⟨_, isCount, _⟩ := Run.of_bind isSlots
    exact align_le_of_recordCount isCount live
  | associations =>
    obtain ⟨isBound, isBlock⟩ := owners.block live
    show AssocTable.storageAlign ≤ (rv.storageOf .associations).bytes
    rw [isBlock]
    exact AssocTable.storageAlign_le (owners.table isBound).1
  | resolvers =>
    obtain ⟨_, isCount⟩ := owners.resolvers
    exact align_le_of_recordCount isCount live

variable (replacement : Replaced platform rv after stop placed) (resting : Resting platform rv)
  (below : stop ≤ rv.imageFrontier)

include replacement resting

/-- The slots of the leases are those of the table at its new place. -/
theorem Owners.slots_replaced : (rv.replaced after placed).endpointLeaseSlots platform =
    .ok slots := by
  have isMoved := replacement.moved resting.space.nonnull (fun kind => resting.ptr_ne_zero)
    .endpointLeases
  have sameCount : recordCount platform.leases (rv.replaced after placed).endpointLeaseStorage =
      recordCount platform.leases rv.endpointLeaseStorage := isMoved.recordCount platform.leases
  obtain ⟨count, isSlots, isArray⟩ := Run.of_bind owners.isSlots
  obtain ⟨records, isCount, isSmall⟩ := Run.of_bind isSlots
  have isRecords : records = count := by
    split at isSmall
    · exact Except.ok.inj isSmall
    · cases isSmall
  rw [isRecords] at isCount isSmall
  rw [endpointLeaseSlots, endpointLeaseSlotCount, sameCount, isCount, Run.bind_ok, isSmall,
    Run.bind_ok, ← isArray, replacement.memory_eq]
  have isBytes : (rv.storageOf .endpointLeases).bytes = count * platform.leases.codec.size :=
    (recordCount_spec isCount).1
  exact congrArg Except.ok (array_congr (isBytes ▸ isMoved.same))

include below

/-- The table of the lanes may be moved to its new block. -/
theorem Owners.moves (live : rv.storageOf .associations ≠ .empty) :
    rv.lanes.tableRange.Moves platform.usizeMax after
      ((rv.replaced after placed).storageOf .associations).ptr := by
  obtain ⟨isBound, isBlock⟩ := owners.block live
  obtain ⟨target, inPlaced, isStorage, sameShape, same⟩ := replacement.storageOf_mem live
  have bounds := replacement.order.mem inPlaced
  have sameBytes : target.bytes = (rv.storageOf .associations).bytes := congrArg (·.2.1) sameShape
  have sameAlign : target.align = AssocTable.storageAlign := congrArg (·.2.2) sameShape
  have aligned := replacement.aligned target inPlaced
  have inSpace := resting.space.fits
  have nonnull := resting.space.nonnull
  have frontier := resting.frontier
  rw [isBlock] at sameBytes same
  rw [sameAlign] at aligned
  rw [isStorage]
  refine ⟨isBound, ?_, aligned, ?_, same⟩
  · show target.ptr ≠ 0
    omega
  · show target.ptr + AssocTable.blockBytes rv.lanes.assoc.assocSlots ≤ platform.usizeMax
    rw [← show target.bytes = AssocTable.blockBytes rv.lanes.assoc.assocSlots from sameBytes]
    omega

/-- The owners take their new blocks. -/
theorem Owners.rebindable {resident : ResidentSidecar} (mem : resident ∈ placed) :
    Rebindable platform { rv with lanes := { rv.lanes with memory := after } } resident := by
  obtain ⟨kind, isLive, sameShape⟩ := replacement.origin resident mem
  have live := isLive_residentOf.mp isLive
  have sameKind : resident.kind = kind := congrArg Prod.fst sameShape
  have isStorage : (rv.replaced after placed).storageOf kind = resident.storage :=
    sameKind ▸ storageOf_foldl replacement.distinct mem
  have bounds := replacement.order.mem mem
  have nonnull := resting.space.nonnull
  have filled : 0 < resident.bytes := by
    have wasFilled := resting.filled (mem_liveSidecars.mpr ⟨kind, rfl⟩) isLive
    rw [← show resident.bytes = (residentOf platform rv kind).bytes from congrArg (·.2.1) sameShape]
      at wasFilled
    exact wasFilled
  refine ⟨?_, fun isAssoc => ?_, fun isResolvers => ?_⟩
  · have isPtr : resident.storage.ptr = resident.ptr := rfl
    have isBytes : resident.storage.bytes = resident.bytes := rfl
    rw [Sidecar.isEmpty, if_neg (by omega), if_neg (by omega)]
  · obtain rfl := sameKind.symm.trans isAssoc
    have moves := owners.moves replacement resting below live
    obtain ⟨pos, small, lanes⟩ := owners.table moves.isBound
    have isOk : rv.lanes.assoc.relocateStorage platform.usizeMax _ = _ :=
      AssocTable.commitStorage_eq moves.aligned pos small lanes moves.fits
    rw [isStorage] at isOk
    rw [LaneStore.relocateAssoc, isOk]
    rfl
  · obtain rfl := sameKind.symm.trans isResolvers
    obtain ⟨count, isCount⟩ := owners.resolvers
    have isMoved := replacement.moved nonnull (fun kind => resting.ptr_ne_zero) .resolvers
    refine ⟨count, ?_, isCount⟩
    rw [← isStorage]
    exact (isMoved.recordCount platform.resolvers).trans isCount

/-- No lease starts below the new image frontier. -/
theorem Owners.storageFloor : ∃ floor,
    (rv.replaced after placed).endpointStorageFloor platform = .ok floor ∧ stop ≤ floor := by
  obtain ⟨_, sameLen, _⟩ :=
    foldl_rebindTo_fields { rv with lanes := { rv.lanes with memory := after } } placed
  refine ⟨_, by rw [endpointStorageFloor, owners.slots_replaced replacement resting]; rfl, ?_⟩
  rw [le_leaseFloor]
  refine ⟨?_, fun slot mem occupied _ => ?_⟩
  · rw [show (rv.replaced after placed).slabLen = rv.slabLen from sameLen]
    exact Nat.le_trans below resting.frontier
  · exact Nat.le_trans below (owners.above slot mem occupied)

end Owned

/-- The slab holds the same with its blocks at other places. -/
theorem Replaced.holds (replacement : Replaced platform rv after stop placed)
    (holds : Holds platform rv contents) (below : stop ≤ rv.imageFrontier) :
    Holds platform { rv.replaced after placed with imageFrontier := stop } contents := by
  obtain ⟨samePtr, sameLen, sameGeneration⟩ :=
    foldl_rebindTo_fields { rv with lanes := { rv.lanes with memory := after } } placed
  change (rv.replaced after placed).slabPtr = rv.slabPtr at samePtr
  change (rv.replaced after placed).slabLen = rv.slabLen at sameLen
  have isMemory := replacement.memory_eq
  have moved := replacement.moved holds.resting.space.nonnull fun kind => holds.resting.ptr_ne_zero
  refine ⟨replacement.resting holds.resting below, Nat.le_trans below holds.small, ?_,
    holds.leaseCount, fun lease mem occupied => ?_, holds.apart, ?_, ?_, ?_,
    sameGeneration.trans holds.generation⟩
  · show Table platform.leases (rv.replaced after placed).lanes.memory _ _
    rw [isMemory]
    exact holds.leases.moved (moved .endpointLeases)
  · have isFit := holds.fits lease mem occupied
    refine ⟨isFit.filled, Nat.le_trans below isFit.low, ?_, ?_⟩
    · show leaseEnd lease ≤ (rv.replaced after placed).slabLen
      rw [sameLen]
      exact isFit.high
    · show ((rv.replaced after placed).slabPtr + leaseStart lease) % lease.2 = 0
      rw [samePtr]
      exact isFit.aligned
  · by_cases isEmpty : rv.storageOf .associations = .empty
    · rw [replacement.lanes_of_empty isEmpty]
      refine holds.lanes.ofUnbound (Bool.eq_false_iff.mpr fun isBound => ?_) after
      exact AssocTable.isBound_iff.mp isBound (holds.assoc.symm.trans isEmpty)
    · rw [replacement.lanes_of_live isEmpty]
      exact (holds.lanes.relocate (holds.owners.moves replacement holds.resting below isEmpty)).2
  · show (rv.replaced after placed).storageOf .associations =
      (rv.replaced after placed).lanes.assoc.block
    by_cases isEmpty : rv.storageOf .associations = .empty
    · rw [replacement.storageOf_empty isEmpty, replacement.lanes_of_empty isEmpty]
      exact isEmpty.symm.trans holds.assoc
    · have moves := holds.owners.moves replacement holds.resting below isEmpty
      have isBytes := (moved .associations).bytes
      have isBlock : rv.storageOf .associations = rv.lanes.assoc.block := holds.assoc
      have isBound : rv.lanes.assoc.isBound = true := moves.isBound
      rw [isBlock, AssocTable.block, if_pos isBound] at isBytes
      rw [replacement.lanes_of_live isEmpty, AssocTable.block_ofBlock moves.nonnull]
      exact congrArg (Sidecar.mk _) isBytes
  · rw [isMemory]
    exact holds.resolvers.moved (moved .resolvers)

/-- What a compaction leaves alone. -/
structure SameRange (rv next : Rendezvous) : Prop where
  slabPtr : next.slabPtr = rv.slabPtr
  slabLen : next.slabLen = rv.slabLen
  laneBase : next.lanes.laneBase = rv.lanes.laneBase
  laneEnd : next.lanes.laneEnd = rv.lanes.laneEnd
  laneSlots : next.lanes.assoc.laneSlots = rv.lanes.assoc.laneSlots
  assocSlots : next.lanes.assoc.assocSlots = rv.lanes.assoc.assocSlots

theorem Replaced.sameRange (replacement : Replaced platform rv after stop placed) :
    SameRange rv { rv.replaced after placed with imageFrontier := stop } := by
  obtain ⟨samePtr, sameLen, _⟩ :=
    foldl_rebindTo_fields { rv with lanes := { rv.lanes with memory := after } } placed
  obtain ⟨assoc, isLanes, sameLanes, sameSlots⟩ : ∃ assoc,
      (rv.replaced after placed).lanes = { rv.lanes with memory := after, assoc } ∧
      assoc.laneSlots = rv.lanes.assoc.laneSlots ∧
      assoc.assocSlots = rv.lanes.assoc.assocSlots := by
    by_cases isEmpty : rv.storageOf .associations = .empty
    · exact ⟨rv.lanes.assoc, replacement.lanes_of_empty isEmpty, rfl, rfl⟩
    · exact ⟨_, replacement.lanes_of_live isEmpty, rfl, rfl⟩
  refine ⟨samePtr, sameLen, ?_, ?_, ?_, ?_⟩
  · rw [isLanes]
  · rw [isLanes]
  · rw [isLanes, sameLanes]
  · rw [isLanes, sameSlots]

/-- The moves of a compaction put the blocks at other places. -/
theorem Resting.replaced (resting : Resting platform rv) :
    ∃ wanted stop placed idle after,
      rv.sidecarPackingOrder platform (rv.liveSidecars platform) = .ok (some (wanted, stop)) ∧
      rv.moveLiveSidecars platform = .ok (placed ++ idle, stop, after) ∧
      stop ≤ rv.imageFrontier ∧ (∀ resident ∈ idle, resident.storage = .empty) ∧
      Replaced platform rv after stop placed := by
  obtain ⟨wanted, stop, placed, idle, after, isBest, isMoved, below, isIdle, isPerm, order, aligned,
    carried⟩ := resting.moveLiveSidecars
  refine ⟨wanted, stop, placed, idle, after, isBest, isMoved, below, isIdle, ?_, fun resident mem
    => ?_, fun kind live => ?_, order, aligned⟩
  · have kinds : ((rv.liveSidecars platform).map kind).Nodup := by
      show [ResidentSidecarKind.endpointLeases, .associations, .resolvers].Nodup
      decide
    have isKinds : ∀ list : List ResidentSidecar, (list.map shape).map Prod.fst = list.map kind :=
      fun list => by rw [map_map]; rfl
    rw [← isKinds]
    refine (isPerm.map Prod.fst).nodup_iff.mpr ?_
    rw [isKinds]
    exact kinds.sublist (filter_sublist.map kind)
  · obtain ⟨origin, inLive, sameShape⟩ :=
      mem_map.mp (isPerm.mem_iff.mp (mem_map_of_mem mem))
    obtain ⟨isMember, live⟩ := mem_filter.mp inLive
    obtain ⟨kind, rfl⟩ := mem_liveSidecars.mp isMember
    exact ⟨kind, live, sameShape.symm⟩
  · exact carried _ (mem_filter.mpr ⟨mem_liveSidecars.mpr ⟨kind, rfl⟩, live⟩)

theorem Holds.assocBytes (holds : Holds platform rv contents) :
    rv.assocStorage.bytes = AssocTable.blockBytes rv.lanes.assoc.assocSlots := by
  rw [holds.assoc, AssocTable.block]
  cases isBound : rv.lanes.assoc.isBound with
  | true => rfl
  | false =>
    rw [show rv.lanes.assoc = .initEmpty from holds.lanes.unbound isBound]
    rfl

/-- No slab at rest whose blocks are as large or larger ends before this one. -/
def Tight (platform : Platform Key Ref) (rv : Rendezvous) : Prop :=
  ∀ other, Resting platform other → other.slabPtr = rv.slabPtr →
    (∀ kind, (rv.storageOf kind).bytes ≤ (other.storageOf kind).bytes) →
    rv.imageFrontier ≤ other.imageFrontier

/-- The best order of some blocks ends before the arrangement of larger ones. -/
theorem Resting.packEnd_le (resting : Resting platform rv) {least : Nat}
    (isLeast : ∀ order : List ResidentSidecar, order.Perm (rv.liveSidecars platform) →
      rv.slabPtr + least ≤ packEnd bytes align rv.slabPtr (order.filter isLive))
    {other : Rendezvous} (isOther : Resting platform other) (samePtr : other.slabPtr = rv.slabPtr)
    (smaller : ∀ kind, (rv.storageOf kind).bytes ≤ (other.storageOf kind).bytes) :
    least ≤ other.imageFrontier := by
  obtain ⟨wanted, stop, _, isPerm, below, isEnd, _⟩ := isOther.packingOrder
  have isMap : wanted = (wanted.map kind).map (residentOf platform other) := by
    rw [map_map]
    refine (map_id wanted).symm.trans (map_congr_left fun resident mem => ?_)
    obtain ⟨owner, rfl⟩ := mem_liveSidecars.mp (isPerm.mem_iff.mp mem)
    rfl
  have isOrder := isLeast ((wanted.map kind).map (residentOf platform rv))
    ((isPerm.map kind).map (residentOf platform rv))
  have isSmaller : packEnd (fun kind => (rv.storageOf kind).bytes) (alignOf platform) rv.slabPtr
        ((wanted.map kind).filter fun kind => isLive (residentOf platform rv kind)) ≤
      packEnd (fun kind => (other.storageOf kind).bytes) (alignOf platform) rv.slabPtr
        ((wanted.map kind).filter fun kind => isLive (residentOf platform other kind)) := by
    refine packEnd_filter_le (fun kind _ => isPowerOfTwo_pos (alignOf_isPower kind))
      (fun kind _ live => isLive_residentOf.mpr fun isEmpty => ?_) (fun kind _ => smaller kind)
      le_rfl
    have filled : 0 < (rv.storageOf kind).bytes :=
      resting.filled (mem_liveSidecars.mpr ⟨kind, rfl⟩) live
    have noBytes := isEmpty ▸ smaller kind
    exact absurd (Nat.lt_of_lt_of_le filled noBytes) (Nat.lt_irrefl 0)
  rw [isMap, samePtr, filter_map, packEnd_map] at isEnd
  rw [filter_map, packEnd_map] at isOrder
  have isLe := isOrder.trans (isSmaller.trans (Nat.le_of_eq isEnd))
  omega

/-- A compaction of blocks at rest puts them at other places, and the image frontier goes to the
best end. -/
theorem Owners.compact (owners : Owners platform rv slots) (resting : Resting platform rv) :
    ∃ wanted stop placed after,
      rv.sidecarPackingOrder platform (rv.liveSidecars platform) = .ok (some (wanted, stop)) ∧
      rv.compactLiveSidecars platform =
        .ok { rv.replaced after placed with imageFrontier := stop } ∧
      stop ≤ rv.imageFrontier ∧ Replaced platform rv after stop placed := by
  obtain ⟨wanted, stop, placed, idle, after, isBest, isMoved, below, isIdle, replacement⟩ :=
    resting.replaced
  obtain ⟨floor, isFloor, above⟩ := owners.storageFloor replacement resting below
  refine ⟨wanted, stop, placed, after, isBest, ?_, below, replacement⟩
  have isRebound : (placed ++ idle).foldlM (Rendezvous.rebind platform)
      { rv with lanes := { rv.lanes with memory := after } } = .ok (rv.replaced after placed) := by
    rw [foldlM_append, rebind_placed replacement.distinct fun resident =>
      owners.rebindable replacement resting below, Run.bind_ok]
    exact rebind_idle isIdle
  have isSmall := owners.small
  rw [compactLiveSidecars, isMoved, Run.bind_ok]
  dsimp only
  rw [isRebound, Run.bind_ok, isFloor, Run.bind_ok, if_neg (by omega)]
  rfl

/-- A compaction keeps what the slab holds. -/
theorem Holds.compact (holds : Holds platform rv contents) :
    ∃ wanted stop next,
      rv.sidecarPackingOrder platform (rv.liveSidecars platform) = .ok (some (wanted, stop)) ∧
      rv.compactLiveSidecars platform = .ok next ∧ Holds platform next contents ∧
      next.imageFrontier = stop ∧ SameRange rv next ∧ Tight platform next := by
  obtain ⟨wanted, stop, placed, after, isBest, isOk, below, replacement⟩ :=
    holds.owners.compact holds.resting
  obtain ⟨_, _, isPacked, _, _, _, isLeast⟩ := holds.resting.packingOrder
  cases Except.ok.inj (isBest.symm.trans isPacked)
  have moved := replacement.moved holds.resting.space.nonnull fun kind => holds.resting.ptr_ne_zero
  refine ⟨wanted, stop, _, isBest, isOk, replacement.holds holds below, rfl, replacement.sameRange,
    fun other isOther samePtr smaller => ?_⟩
  refine holds.resting.packEnd_le isLeast isOther (samePtr.trans replacement.sameRange.slabPtr)
    fun kind => ?_
  rw [← (moved kind).bytes]
  exact smaller kind

/-- A tight slab ends no later than one whose tables have as many entries or more. -/
theorem Tight.frontier_le {next : Rendezvous} {after : Contents Key Ref}
    (tight : Tight platform next) (isNext : Holds platform next after)
    (holds : Holds platform rv contents) (samePtr : next.slabPtr = rv.slabPtr)
    (fewerLeases : after.leases.length ≤ contents.leases.length)
    (fewerSlots : next.lanes.assoc.assocSlots ≤ rv.lanes.assoc.assocSlots)
    (fewerResolvers : after.resolvers.length ≤ contents.resolvers.length) :
    next.imageFrontier ≤ rv.imageFrontier := by
  refine tight rv holds.resting samePtr.symm fun kind => ?_
  cases kind with
  | endpointLeases =>
    show next.endpointLeaseStorage.bytes ≤ rv.endpointLeaseStorage.bytes
    rw [isNext.leases.bytes, holds.leases.bytes, length_map, length_map]
    exact Nat.mul_le_mul_right _ fewerLeases
  | associations =>
    show next.assocStorage.bytes ≤ rv.assocStorage.bytes
    rw [isNext.assocBytes, holds.assocBytes]
    unfold AssocTable.blockBytes
    omega
  | resolvers =>
    show next.resolverStorage.bytes ≤ rv.resolverStorage.bytes
    rw [isNext.resolvers.bytes, holds.resolvers.bytes]
    exact Nat.mul_le_mul_right _ fewerResolvers

/-- Blocks below the image frontier, aligned, and apart from each other. -/
structure BlocksApart (platform : Platform Key Ref) (rv : Rendezvous) : Prop where
  low : ∀ kind, rv.storageOf kind ≠ .empty → rv.slabPtr ≤ (rv.storageOf kind).ptr
  high : ∀ kind, rv.storageOf kind ≠ .empty →
    (rv.storageOf kind).ptr + (rv.storageOf kind).bytes ≤ rv.slabPtr + rv.imageFrontier
  aligned : ∀ kind, rv.storageOf kind ≠ .empty →
    (rv.storageOf kind).ptr % alignOf platform kind = 0
  apart : ∀ first second, first ≠ second →
    (rv.storageOf first).ptr + (rv.storageOf first).bytes ≤ (rv.storageOf second).ptr ∨
      (rv.storageOf second).ptr + (rv.storageOf second).bytes ≤ (rv.storageOf first).ptr

theorem Owners.resting (owners : Owners platform rv slots) (apart : BlocksApart platform rv)
    (space : InSpace platform.usizeMax rv) (frontier : rv.imageFrontier ≤ rv.slabLen) :
    Resting platform rv := by
  refine ⟨space, frontier, fun resident mem live => ?_, fun resident mem live => ?_,
    fun resident mem live => ?_, fun resident mem live => ?_,
    pairwise_liveSidecars apart.apart⟩ <;>
    obtain ⟨kind, rfl⟩ := mem_liveSidecars.mp mem
  · exact apart.low kind (isLive_residentOf.mp live)
  · exact apart.high kind (isLive_residentOf.mp live)
  · exact apart.aligned kind (isLive_residentOf.mp live)
  · exact owners.alignable (isLive_residentOf.mp live)

theorem Resting.blocksApart (resting : Resting platform rv) : BlocksApart platform rv := by
  have mem : ∀ kind, residentOf platform rv kind ∈ rv.liveSidecars platform := fun kind =>
    mem_liveSidecars.mpr ⟨kind, rfl⟩
  refine ⟨fun kind live => resting.low _ (mem kind) (isLive_residentOf.mpr live),
    fun kind live => resting.high _ (mem kind) (isLive_residentOf.mpr live),
    fun kind live => resting.aligned _ (mem kind) (isLive_residentOf.mpr live),
    fun first second ne => ?_⟩
  have symmetric : Std.Symm fun first second : ResidentSidecar =>
      first.ptr + first.bytes ≤ second.ptr ∨ second.ptr + second.bytes ≤ first.ptr :=
    ⟨fun _ _ => Or.symm⟩
  exact resting.apart.forall (mem first) (mem second) fun same =>
    ne (congrArg ResidentSidecar.kind same)

/-- The ends that packing the live blocks from the start of the slab reaches, over all orders. -/
def PackedEnds (platform : Platform Key Ref) (rv : Rendezvous) : Set Nat :=
  { stop | ∃ order : List ResidentSidecar,
    order.Perm ((rv.liveSidecars platform).filter isLive) ∧
      packEnd bytes align rv.slabPtr order = rv.slabPtr + stop }

/-- A compaction packs the blocks of a slab as far down as any order can, without a failure. -/
theorem compactLiveSidecars_packs (owners : Owners platform rv slots)
    (apart : BlocksApart platform rv) (space : InSpace platform.usizeMax rv)
    (frontier : rv.imageFrontier ≤ rv.slabLen) :
    ∃ next, rv.compactLiveSidecars platform = .ok next ∧
      (∀ kind, Moved rv.lanes.memory (rv.storageOf kind) next.lanes.memory (next.storageOf kind)) ∧
      BlocksApart platform next ∧ next.slabPtr = rv.slabPtr ∧
      IsLeast (PackedEnds platform rv) next.imageFrontier ∧
      next.imageFrontier ≤ rv.imageFrontier := by
  have resting := owners.resting apart space frontier
  obtain ⟨wanted, stop, placed, after, isBest, isOk, below, replacement⟩ := owners.compact resting
  obtain ⟨_, _, isPacked, wantedPerm, _, isEnd, isLeast⟩ := resting.packingOrder
  cases Except.ok.inj (isBest.symm.trans isPacked)
  have moved := replacement.moved space.nonnull fun kind => resting.ptr_ne_zero
  refine ⟨_, isOk, fun kind => ?_, (replacement.resting resting below).blocksApart,
    replacement.sameRange.slabPtr, ⟨⟨_, wantedPerm.filter isLive, isEnd⟩, ?_⟩, below⟩
  · rw [show _ = after from replacement.memory_eq]
    exact moved kind
  · -- an order of the live blocks is an order of all blocks with the empty ones behind
    rintro other ⟨order, isPerm, isOther⟩
    have allLive : order.filter isLive = order := filter_eq_self.mpr fun resident mem =>
      (mem_filter.mp (isPerm.mem_iff.mp mem)).2
    have least := isLeast
      (order ++ (rv.liveSidecars platform).filter fun resident => !isLive resident)
      ((isPerm.append_right _).trans (filter_append_perm _ _))
    rw [filter_append, allLive, filter_filter, filter_eq_nil_iff.mpr (by simp),
      append_nil, isOther] at least
    exact Nat.le_of_add_le_add_left least

/-- A slab of two leases with gaps between the blocks of its tables. -/
def scatteredSlab : Rendezvous where
  slabPtr := 4096
  slabLen := 256
  imageFrontier := 96
  endpointLeaseGeneration := 2
  endpointLeaseStorage := ⟨4120, 40⟩
  assocStorage := ⟨4104, 8⟩
  resolverStorage := ⟨4164, 12⟩
  lanes := ⟨[(⟨1, 7, 192, 64, 0, .published⟩ : EndpointLeaseSlot), ⟨2, 7, 96, 32, 1, .reserved⟩]
    |>.zipIdx.foldl (fun memory (slot, index) =>
      write Platform.narrow.leases.codec memory (4120 + index * 20) slot) fun _ => 0,
    .ofBlock 4104 0 1 1, 0, 1⟩

/-- The blocks of sixty bytes are packed without a gap. -/
theorem compactLiveSidecars_packs_scattered :
    IsLeast (PackedEnds Platform.narrow scatteredSlab) 60 := by
  have isSlots : scatteredSlab.endpointLeaseSlots Platform.narrow =
      .ok [⟨1, 7, 192, 64, 0, .published⟩, ⟨2, 7, 96, 32, 1, .reserved⟩] := by decide +kernel
  have owners : Owners Platform.narrow scatteredSlab _ :=
    ⟨by decide, isSlots, by decide, ⟨1, by decide +kernel⟩, rfl, by decide⟩
  have apart : BlocksApart Platform.narrow scatteredSlab := by
    refine ⟨?_, ?_, ?_, ?_⟩
    · intro kind
      cases kind <;> decide
    · intro kind
      cases kind <;> decide
    · intro kind
      cases kind <;> decide
    · intro first second
      cases first <;> cases second <;> decide
  have isFrontier : (scatteredSlab.compactLiveSidecars Platform.narrow).map imageFrontier =
      .ok 60 := by decide +kernel
  obtain ⟨next, isOk, _, _, _, isLeast, _⟩ :=
    compactLiveSidecars_packs owners apart ⟨by decide, by decide⟩ (by decide)
  rw [isOk] at isFrontier
  rwa [Except.ok.inj isFrontier] at isLeast

end Compaction

end Rendezvous

end Hibana
