/-
This file is about the place of a new lease in the slab of a rendezvous.

The search starts at the top of the slab. It tries the gap behind the last lease that
begins before an offset and goes on before that lease, so it passes a lease in every
round and ends. It finds the highest place that is aligned, inside the slab, not below
the floor, and apart from the leases.
-/

import Mathlib.Data.List.Pairwise
import Mathlib.Order.Bounds.Basic
import HibanaChoreography.Library.Search
import HibanaChoreography.Rendezvous.EndpointLeases

namespace Hibana

open Outcome ByteMemory

namespace EndpointLeaseSlot

/-- The offset behind a lease. -/
def stop (slot : EndpointLeaseSlot) : Nat := slot.offset.toNat + slot.len.toNat

/-- Two leases that do not overlap. -/
def Apart (first second : EndpointLeaseSlot) : Prop :=
  first.isOccupied = true → second.isOccupied = true →
    first.stop ≤ second.offset.toNat ∨ second.stop ≤ first.offset.toNat

instance (first second : EndpointLeaseSlot) : Decidable (Apart first second) :=
  inferInstanceAs (Decidable (_ → _ → _))

instance : Std.Symm Apart :=
  ⟨fun _ _ apart isSecond isFirst => (apart isFirst isSecond).symm⟩

end EndpointLeaseSlot

namespace Rendezvous

variable {Key Ref : Type} {platform : Platform Key Ref} {rv : Rendezvous}

/-! ### The last lease before an offset -/

/-- An occupied slot that begins before an offset. -/
def beginsBefore (candidateEnd : Nat) (slot : EndpointLeaseSlot) : Bool :=
  slot.isOccupied ∧ slot.offset.toNat < candidateEnd

/-- The scan finds the last slot that begins before the offset. -/
theorem foldl_laterLease (candidateEnd : Nat) (slots : List EndpointLeaseSlot)
    (best : Option EndpointLeaseSlot × Nat) (start : best.1 = none → best.2 = 0) :
    best.2 ≤ (slots.foldl (laterLease candidateEnd) best).2 ∧
    (∀ slot ∈ slots, beginsBefore candidateEnd slot = true →
      slot.offset.toNat ≤ (slots.foldl (laterLease candidateEnd) best).2 ∧
      (slots.foldl (laterLease candidateEnd) best).1 ≠ none) ∧
    (slots.foldl (laterLease candidateEnd) best = best ∨
      ∃ slot ∈ slots, beginsBefore candidateEnd slot = true ∧
        slots.foldl (laterLease candidateEnd) best = (some slot, slot.offset.toNat)) := by
  induction slots generalizing best with
  | nil => exact ⟨le_rfl, nofun, .inl rfl⟩
  | cons slot rest hyp =>
    rw [List.foldl_cons]
    by_cases isLater : slot.isOccupied ∧ slot.offset.toNat < candidateEnd ∧
      best.2 ≤ slot.offset.toNat
    · rw [laterLease, if_pos isLater]
      obtain ⟨above, others, isOne⟩ := hyp (some slot, slot.offset.toNat) fun isNone => by
        cases isNone
      have isBefore : beginsBefore candidateEnd slot = true :=
        decide_eq_true ⟨isLater.1, isLater.2.1⟩
      refine ⟨Nat.le_trans isLater.2.2 above, fun other mem before => ?_, .inr ?_⟩
      · rcases List.mem_cons.mp mem with rfl | inRest
        · refine ⟨above, fun isNone => ?_⟩
          rcases isOne with isBest | ⟨_, _, _, isSlot⟩
          · rw [isBest] at isNone
            cases isNone
          · rw [isSlot] at isNone
            cases isNone
        · exact others other inRest before
      · rcases isOne with isBest | ⟨found, inRest, before, isSlot⟩
        · exact ⟨slot, List.mem_cons_self, isBefore, isBest⟩
        · exact ⟨found, List.mem_cons_of_mem _ inRest, before, isSlot⟩
    · rw [laterLease, if_neg isLater]
      obtain ⟨above, others, isOne⟩ := hyp best start
      refine ⟨above, fun other mem before => ?_, ?_⟩
      · rcases List.mem_cons.mp mem with rfl | inRest
        · obtain ⟨occupied, isBefore⟩ := of_decide_eq_true before
          have isEarlier : other.offset.toNat < best.2 :=
            Nat.lt_of_not_le fun later => isLater ⟨occupied, isBefore, later⟩
          refine ⟨by omega, fun isNone => ?_⟩
          rcases isOne with isBest | ⟨_, _, _, isSlot⟩
          · rw [isBest] at isNone
            have isZero := start isNone
            omega
          · rw [isSlot] at isNone
            cases isNone
        · exact others other inRest before
      · rcases isOne with isBest | ⟨found, inRest, before, isSlot⟩
        · exact .inl isBest
        · exact .inr ⟨found, List.mem_cons_of_mem _ inRest, before, isSlot⟩

variable {candidateEnd : Nat} {slots : List EndpointLeaseSlot}

theorem bestBelow_none (isNone : bestBelow candidateEnd slots = none) {slot : EndpointLeaseSlot}
    (mem : slot ∈ slots) : beginsBefore candidateEnd slot = false := by
  refine Bool.eq_false_iff.mpr fun before => ?_
  exact ((foldl_laterLease candidateEnd slots (none, 0) fun _ => rfl).2.1 slot mem before).2 isNone

theorem bestBelow_some {best : EndpointLeaseSlot}
    (isBest : bestBelow candidateEnd slots = some best) :
    best ∈ slots ∧ beginsBefore candidateEnd best = true ∧
      ∀ slot ∈ slots, beginsBefore candidateEnd slot = true →
        slot.offset.toNat ≤ best.offset.toNat := by
  obtain ⟨_, others, isOne⟩ := foldl_laterLease candidateEnd slots (none, 0) fun _ => rfl
  unfold bestBelow at isBest
  rcases isOne with isStart | ⟨slot, mem, before, isSlot⟩
  · rw [isStart] at isBest
    cases isBest
  · rw [isSlot] at isBest others
    cases isBest
    exact ⟨mem, before, fun other inSlots isBefore => (others other inSlots isBefore).1⟩

/-! ### Gaps -/

theorem le_alignDown {value align other : Nat} (isAligned : other % align = 0)
    (below : other ≤ value) : other ≤ Layout.alignDown value align := by
  have quotient := Nat.mul_le_mul_left align (Nat.div_le_div_right below (c := align))
  have whole := Nat.div_add_mod value align
  have exact_ := Nat.div_add_mod other align
  unfold Layout.alignDown
  omega

/-- The place in a gap is the highest one. -/
theorem endpointOffsetInGap_highest (platform : Platform Key Ref) (bytes : Nat)
    {base gapEnd align : Nat} (gapStart : Nat) (isPower : Layout.isPowerOfTwo align = true)
    (fits : base + gapEnd ≤ platform.usizeMax) :
    ∃ found, endpointOffsetInGap platform base gapStart gapEnd bytes align = .ok found ∧
      (∀ offset, found = some offset →
        gapStart ≤ offset ∧ offset + bytes ≤ gapEnd ∧ (base + offset) % align = 0) ∧
      ∀ other, gapStart ≤ other → other + bytes ≤ gapEnd → (base + other) % align = 0 →
        ∃ offset, found = some offset ∧ other ≤ offset := by
  rw [endpointOffsetInGap, if_neg (not_not_intro isPower)]
  by_cases tooLarge : gapEnd < bytes
  · rw [if_pos tooLarge]
    exact ⟨none, rfl, nofun, fun other _ high _ => by omega⟩
  rw [if_neg tooLarge, Layout.checkedAdd_of_le (by omega)]
  dsimp only
  have lower : Layout.alignDown (base + (gapEnd - bytes)) align ≤ base + (gapEnd - bytes) :=
    Nat.sub_le _ _
  have highest : ∀ other, other + bytes ≤ gapEnd → (base + other) % align = 0 →
      base + other ≤ Layout.alignDown (base + (gapEnd - bytes)) align :=
    fun other high isAligned => le_alignDown isAligned (by omega)
  by_cases before : Layout.alignDown (base + (gapEnd - bytes)) align < base
  · rw [if_pos before]
    refine ⟨none, rfl, nofun, fun other _ high isAligned => ?_⟩
    have isBelow := highest other high isAligned
    omega
  rw [if_neg before]
  by_cases outside : Layout.alignDown (base + (gapEnd - bytes)) align - base < gapStart
  · rw [if_pos outside]
    refine ⟨none, rfl, nofun, fun other low high isAligned => ?_⟩
    have isBelow := highest other high isAligned
    omega
  rw [if_neg outside]
  refine ⟨_, rfl, fun offset isSome => ?_, fun other _ high isAligned => ⟨_, rfl, ?_⟩⟩
  · cases isSome
    refine ⟨by omega, by omega, ?_⟩
    rw [Nat.add_sub_cancel' (by omega)]
    exact Nat.mod_eq_zero_of_dvd (Nat.dvd_sub_mod _)
  · have isBelow := highest other high isAligned
    omega

/-! ### The search -/

/-- A place for a lease: aligned, not below the floor, before an offset, and apart from the
leases. -/
structure LeasePlace (rv : Rendezvous) (slots : List EndpointLeaseSlot)
    (bytes align floor stop offset : Nat) : Prop where
  low : floor ≤ offset
  high : offset + bytes ≤ stop
  aligned : (rv.slabPtr + offset) % align = 0
  apart : ∀ slot ∈ slots, slot.isOccupied = true →
    offset + bytes ≤ slot.offset.toNat ∨ slot.stop ≤ offset

/-- An answer to a search: the highest of the places, or a refusal where there is none. -/
def Highest (place : Nat → Prop) : Except ResourceScope Nat → Prop
  | .ok offset => IsGreatest {offset | place offset} offset
  | .error scope => scope = .endpointLease ∧ ∀ offset, ¬ place offset

section Search

variable {slots : List EndpointLeaseSlot} {bytes align : Nat}
  (isPower : Layout.isPowerOfTwo align = true)
  (space : rv.slabPtr + rv.slabLen ≤ platform.usizeMax)
  (filled : ∀ slot ∈ slots, slot.isOccupied = true → 0 < slot.len.toNat)
  (fits : ∀ slot ∈ slots, slot.isOccupied = true → slot.stop ≤ platform.usizeMax)
  (apart : slots.Pairwise EndpointLeaseSlot.Apart)

include filled apart in
/-- The leases that begin before an offset end with the last one of them or before. -/
theorem stop_le_of_bestBelow {best slot : EndpointLeaseSlot}
    (isBest : bestBelow candidateEnd slots = some best) (mem : slot ∈ slots)
    (occupied : slot.isOccupied = true) :
    candidateEnd ≤ slot.offset.toNat ∨ slot.stop ≤ best.stop := by
  obtain ⟨inSlots, isBefore, isLast⟩ := bestBelow_some isBest
  obtain ⟨bestOccupied, before⟩ := of_decide_eq_true isBefore
  by_cases behind : candidateEnd ≤ slot.offset.toNat
  · exact .inl behind
  refine .inr ?_
  by_cases same : slot = best
  · rw [same]
  have notLater := isLast slot mem (decide_eq_true ⟨occupied, Nat.lt_of_not_le behind⟩)
  have isApart := apart.forall mem inSlots same occupied bestOccupied
  have bestFilled := filled best inSlots bestOccupied
  unfold EndpointLeaseSlot.stop at isApart ⊢
  omega

include isPower space filled fits apart in
/-- Every round of the search passes a lease, and no place is passed. -/
theorem planOffsetBelow_highest (floor fuel candidateEnd : Nat) (inSlab : candidateEnd ≤ rv.slabLen)
    (enough : slots.countP (beginsBefore candidateEnd) < fuel) :
    ∃ answer, rv.planOffsetBelow platform slots bytes align floor fuel candidateEnd = .ok answer ∧
      Highest (LeasePlace rv slots bytes align floor candidateEnd) answer := by
  induction fuel generalizing candidateEnd with
  | zero => cases enough
  | succ fuel hyp =>
    rw [Rendezvous.planOffsetBelow]
    cases isBest : bestBelow candidateEnd slots with
    | none =>
      have behind : ∀ slot ∈ slots, slot.isOccupied = true →
          candidateEnd ≤ slot.offset.toNat := fun slot mem occupied => by
        have notBefore := bestBelow_none isBest mem
        rw [beginsBefore, decide_eq_false_iff_not] at notBefore
        exact Nat.not_lt.mp fun before => notBefore ⟨occupied, before⟩
      obtain ⟨found, isFound, isPlace, highest⟩ := endpointOffsetInGap_highest platform bytes
        floor isPower (Nat.le_trans (Nat.add_le_add_left inSlab rv.slabPtr) space)
      dsimp only
      rw [Run.pure_eq_ok, Run.bind_ok, isFound, Run.bind_ok]
      cases found with
      | none =>
        refine ⟨_, rfl, rfl, fun other place => ?_⟩
        obtain ⟨_, isSome, _⟩ := highest other place.low place.high place.aligned
        cases isSome
      | some offset =>
        obtain ⟨low, high, aligned⟩ := isPlace offset rfl
        rw [Option.filter_some, if_pos (decide_eq_true low)]
        refine ⟨_, rfl, ⟨low, high, aligned, fun slot mem occupied =>
          .inl (Nat.le_trans high (behind slot mem occupied))⟩, fun other place => ?_⟩
        obtain ⟨_, isSome, below⟩ := highest other place.low place.high place.aligned
        exact Option.some.inj isSome ▸ below
    | some best =>
      obtain ⟨inSlots, isBefore, _⟩ := bestBelow_some isBest
      obtain ⟨occupied, before⟩ := of_decide_eq_true isBefore
      have bestFits := fits best inSlots occupied
      -- A place lies behind the last lease, or it is a place before that lease.
      have splits : ∀ other, LeasePlace rv slots bytes align floor candidateEnd other →
          best.stop ≤ other ∨ LeasePlace rv slots bytes align floor best.offset.toNat other :=
        fun other place => (place.apart best inSlots occupied).symm.imp_right fun isBelow =>
          ⟨place.low, isBelow, place.aligned, place.apart⟩
      obtain ⟨found, isFound, isPlace, highest⟩ := endpointOffsetInGap_highest platform bytes
        best.stop isPower (Nat.le_trans (Nat.add_le_add_left inSlab rv.slabPtr) space)
      dsimp only
      rw [Layout.add_ok bestFits, Run.bind_ok, show
        endpointOffsetInGap platform rv.slabPtr (best.offset.toNat + best.len.toNat) candidateEnd
          bytes align = .ok found from isFound, Run.bind_ok]
      cases isFiltered : found.filter (floor ≤ ·) with
      | some offset =>
        obtain ⟨isSome, above⟩ := Option.filter_eq_some_iff.mp isFiltered
        obtain ⟨low, high, aligned⟩ := isPlace offset isSome
        refine ⟨_, rfl, ⟨of_decide_eq_true above, high, aligned, fun slot mem isOccupied => ?_⟩,
          fun other place => ?_⟩
        · rcases stop_le_of_bestBelow filled apart isBest mem isOccupied with behind | isEarlier
          · exact .inl (Nat.le_trans high behind)
          · exact .inr (Nat.le_trans isEarlier low)
        · rcases splits other place with isBehind | isBelow
          · obtain ⟨_, isOther, below⟩ := highest other isBehind place.high place.aligned
            cases isSome.symm.trans isOther
            exact below
          · have isHigh := isBelow.high
            unfold EndpointLeaseSlot.stop at low
            omega
      | none =>
        obtain ⟨answer, isOk, isHighest⟩ := hyp best.offset.toNat (by omega)
          (Nat.lt_of_lt_of_le (countP_lt (fun other _ isEarlier => by
              obtain ⟨isOccupied, isLower⟩ := of_decide_eq_true isEarlier
              exact decide_eq_true ⟨isOccupied, Nat.lt_trans isLower before⟩) inSlots isBefore
            (decide_eq_false fun both => Nat.lt_irrefl _ both.2)) (Nat.le_of_lt_succ enough))
        have same : LeasePlace rv slots bytes align floor candidateEnd =
            LeasePlace rv slots bytes align floor best.offset.toNat := by
          funext other
          refine propext ⟨fun place => (splits other place).resolve_left fun isBehind => ?_,
            fun place => ⟨place.low, Nat.le_trans place.high (Nat.le_of_lt before), place.aligned,
              place.apart⟩⟩
          obtain ⟨offset, isSome, below⟩ := highest other isBehind place.high place.aligned
          rw [isSome, Option.filter_some, if_pos (decide_eq_true
            (Nat.le_trans place.low below))] at isFiltered
          cases isFiltered
        exact ⟨answer, isOk, same ▸ isHighest⟩

end Search

section Plan

variable {slots : List EndpointLeaseSlot} {align : Nat} (bytes : Nat)
  (isSlots : rv.endpointLeaseSlots platform = .ok slots)
  (isPower : Layout.isPowerOfTwo align = true)
  (space : rv.slabPtr + rv.slabLen ≤ platform.usizeMax)
  (filled : ∀ slot ∈ slots, slot.isOccupied = true → 0 < slot.len.toNat)
  (fits : ∀ slot ∈ slots, slot.isOccupied = true → slot.stop ≤ platform.usizeMax)
  (apart : slots.Pairwise EndpointLeaseSlot.Apart) (floor : Nat)

include isSlots isPower space filled fits apart

/-- A plan of a lease returns. -/
theorem planEndpointLeaseOffset_answers :
    ∃ answer, rv.planEndpointLeaseOffset platform bytes align floor = .ok answer ∧
      Highest (LeasePlace rv slots bytes align floor rv.slabLen) answer := by
  rw [Rendezvous.planEndpointLeaseOffset, isSlots, Run.bind_ok]
  exact planOffsetBelow_highest isPower space filled fits apart floor _ _ le_rfl
    (Nat.lt_succ_of_le List.countP_le_length)

/-- A plan of a lease finds the highest place, and it is refused exactly where there is none. -/
theorem planEndpointLeaseOffset_highest :
    (∃ offset, rv.planEndpointLeaseOffset platform bytes align floor = .ok (.ok offset) ∧
      IsGreatest {offset | LeasePlace rv slots bytes align floor rv.slabLen offset} offset) ∨
    (rv.planEndpointLeaseOffset platform bytes align floor = .ok (.error .endpointLease) ∧
      ¬ ∃ offset, LeasePlace rv slots bytes align floor rv.slabLen offset) := by
  obtain ⟨answer, isOk, isHighest⟩ :=
    planEndpointLeaseOffset_answers bytes isSlots isPower space filled fits apart floor
  cases answer with
  | ok offset => exact .inl ⟨offset, isOk, isHighest⟩
  | error scope =>
    obtain ⟨rfl, absent⟩ := isHighest
    exact .inr ⟨isOk, fun ⟨offset, place⟩ => absent offset place⟩

end Plan

/-- The slots of two leases, the higher one first. -/
def twoLeases : List EndpointLeaseSlot :=
  [⟨1, 7, 192, 64, 0, .published⟩, ⟨2, 7, 96, 32, 1, .reserved⟩]

/-- A slab with the slots of two leases. -/
def leasedSlab : Rendezvous where
  slabPtr := 4096
  slabLen := 256
  imageFrontier := 40
  endpointLeaseGeneration := 2
  endpointLeaseStorage := ⟨4096, 40⟩
  assocStorage := .empty
  resolverStorage := .empty
  lanes := ⟨twoLeases.zipIdx.foldl (fun memory (slot, index) =>
    write Platform.narrow.leases.codec memory (4096 + index * 20) slot) fun _ => 0,
    AssocTable.initEmpty, 0, 0⟩

/-- The new lease goes between the two leases. -/
theorem planEndpointLeaseOffset_between :
    leasedSlab.planEndpointLeaseOffset Platform.narrow 32 16 40 = .ok (.ok 160) ∧
      IsGreatest {offset | LeasePlace leasedSlab twoLeases 32 16 40 256 offset} 160 := by
  have isOk : leasedSlab.planEndpointLeaseOffset Platform.narrow 32 16 40 = .ok (.ok 160) := by
    decide +kernel
  rcases planEndpointLeaseOffset_highest 32 (by decide +kernel :
    leasedSlab.endpointLeaseSlots Platform.narrow = .ok twoLeases)
    (show Layout.isPowerOfTwo 16 = true by decide) (by decide) (by decide) (by decide)
    (by decide) 40 with ⟨offset, isFound, highest⟩ | ⟨isRefused, _⟩
  · cases Except.ok.inj (isOk.symm.trans isFound)
    exact ⟨isOk, highest⟩
  · cases isOk.symm.trans isRefused

end Rendezvous

end Hibana
