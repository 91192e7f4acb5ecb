/-
This file is about blocks that lie behind each other in an address space, each at a
multiple of its alignment.

Packing puts every block at the first aligned place behind the one before it. No
arrangement of the blocks in the same order ends earlier, and no packed block lies
before the place that it would have without gaps.
-/

import Mathlib.Data.List.Basic

namespace Packing

open List

/-- The first multiple of an alignment that is not before an address. -/
def firstAligned (address align : Nat) : Nat :=
  address + (align - 1) - (address + (align - 1)) % align

section Aligned

variable {address align other : Nat}

theorem le_firstAligned (address : Nat) (pos : 0 < align) :
    address ≤ firstAligned address align := by
  have small := Nat.mod_lt (address + (align - 1)) pos
  unfold firstAligned
  omega

theorem firstAligned_mod (address align : Nat) : firstAligned address align % align = 0 :=
  Nat.mod_eq_zero_of_dvd (Nat.dvd_sub_mod _)

/-- No other multiple comes earlier. -/
theorem firstAligned_le (pos : 0 < align) (isAligned : other % align = 0)
    (behind : address ≤ other) : firstAligned address align ≤ other := by
  obtain ⟨factor, rfl⟩ := Nat.dvd_of_mod_eq_zero isAligned
  obtain ⟨count, isCount⟩ := Nat.dvd_of_mod_eq_zero (firstAligned_mod address align)
  rw [isCount]
  refine Nat.mul_le_mul_left align (Nat.le_of_lt_succ (Nat.lt_of_mul_lt_mul_left (a := align) ?_))
  rw [← isCount, Nat.mul_succ]
  unfold firstAligned
  omega

end Aligned

variable {Item : Type} (bytes align start : Item → Nat)

/-- The end of the packed blocks. -/
def packEnd (address : Nat) : List Item → Nat
  | [] => address
  | item :: rest => packEnd (firstAligned address (align item) + bytes item) rest

/-- The places of the packed blocks. -/
def packStarts (address : Nat) : List Item → List Nat
  | [] => []
  | item :: rest =>
    firstAligned address (align item) ::
      packStarts (firstAligned address (align item) + bytes item) rest

/-- Blocks that lie behind each other between two addresses. -/
def InOrder (address stop : Nat) : List Item → Prop
  | [] => address ≤ stop
  | item :: rest => address ≤ start item ∧ InOrder (start item + bytes item) stop rest

variable {bytes align start} {address stop : Nat} {items : List Item}

theorem InOrder.le (inOrder : InOrder bytes start address stop items) : address ≤ stop := by
  induction items generalizing address with
  | nil => exact inOrder
  | cons item rest hyp => exact Nat.le_trans (by have low := inOrder.1; omega) (hyp inOrder.2)

theorem InOrder.mono {lower : Nat} (inOrder : InOrder bytes start address stop items)
    (isLower : lower ≤ address) : InOrder bytes start lower stop items := by
  cases items with
  | nil => exact Nat.le_trans isLower inOrder
  | cons item rest => exact ⟨Nat.le_trans isLower inOrder.1, inOrder.2⟩

theorem InOrder.mem (inOrder : InOrder bytes start address stop items) {item : Item}
    (mem : item ∈ items) : address ≤ start item ∧ start item + bytes item ≤ stop := by
  induction items generalizing address with
  | nil => cases mem
  | cons first rest hyp =>
    have low := inOrder.1
    rcases mem_cons.mp mem with rfl | inRest
    · exact ⟨low, inOrder.2.le⟩
    · have isBehind := hyp inOrder.2 inRest
      omega

/-- Blocks that lie behind each other do not overlap. -/
theorem InOrder.apart (inOrder : InOrder bytes start address stop items) {first second : Item}
    (isFirst : first ∈ items) (isSecond : second ∈ items) (ne : first ≠ second) :
    start first + bytes first ≤ start second ∨ start second + bytes second ≤ start first := by
  induction items generalizing address with
  | nil => cases isFirst
  | cons item rest hyp =>
    rcases mem_cons.mp isFirst with rfl | firstInRest
    · rcases mem_cons.mp isSecond with rfl | secondInRest
      · exact absurd rfl ne
      · exact .inl (inOrder.2.mem secondInRest).1
    · rcases mem_cons.mp isSecond with rfl | secondInRest
      · exact .inr (inOrder.2.mem firstInRest).1
      · exact hyp inOrder.2 firstInRest secondInRest

/-- Blocks that are sorted by their places and do not overlap lie behind each other. -/
theorem inOrder_of_sorted (sorted : items.Pairwise fun first second => start first ≤ start second)
    (apart : items.Pairwise fun first second =>
      start first + bytes first ≤ start second ∨ start second + bytes second ≤ start first)
    (filled : ∀ item ∈ items, 0 < bytes item)
    (bounds : ∀ item ∈ items, address ≤ start item ∧ start item + bytes item ≤ stop)
    (ordered : address ≤ stop) : InOrder bytes start address stop items := by
  induction items generalizing address with
  | nil => exact ordered
  | cons item rest hyp =>
    rw [pairwise_cons] at sorted apart
    rw [forall_mem_cons] at filled bounds
    refine ⟨bounds.1.1, hyp sorted.2 apart.2 filled.2 (fun other mem => ?_) bounds.1.2⟩
    have isSorted := sorted.1 other mem
    have isFilled := filled.2 other mem
    refine ⟨?_, (bounds.2 other mem).2⟩
    rcases apart.1 other mem with before | behind
    · exact before
    · omega

theorem packEnd_map {Other : Type} (change : Other → Item) (address : Nat) (others : List Other) :
    packEnd bytes align address (others.map change) =
      packEnd (bytes ∘ change) (align ∘ change) address others := by
  induction others generalizing address with
  | nil => rfl
  | cons other rest hyp => exact hyp _

theorem packStarts_map {Other : Type} (change : Other → Item) (address : Nat)
    (others : List Other) :
    packStarts bytes align address (others.map change) =
      packStarts (bytes ∘ change) (align ∘ change) address others := by
  induction others generalizing address with
  | nil => rfl
  | cons other rest hyp => exact congrArg (_ :: ·) (hyp _)

theorem le_packEnd (pos : ∀ item ∈ items, 0 < align item) (address : Nat) :
    address ≤ packEnd bytes align address items := by
  induction items generalizing address with
  | nil => exact Nat.le_refl address
  | cons item rest hyp =>
    rw [forall_mem_cons] at pos
    have behind := le_firstAligned address pos.1
    exact Nat.le_trans (by omega) (hyp pos.2 (firstAligned address (align item) + bytes item))

variable {earlier later : Nat}

theorem packEnd_mono (pos : ∀ item ∈ items, 0 < align item) (ordered : earlier ≤ later) :
    packEnd bytes align earlier items ≤ packEnd bytes align later items := by
  induction items generalizing earlier later with
  | nil => exact ordered
  | cons item rest hyp =>
    rw [forall_mem_cons] at pos
    refine hyp pos.2 (Nat.add_le_add_right ?_ _)
    exact firstAligned_le pos.1 (firstAligned_mod _ _)
      (Nat.le_trans ordered (le_firstAligned _ pos.1))

/-- Fewer and smaller blocks end no later. -/
theorem packEnd_filter_le {smaller : Item → Nat} {fewer more : Item → Bool}
    (pos : ∀ item ∈ items, 0 < align item)
    (within : ∀ item ∈ items, fewer item = true → more item = true)
    (small : ∀ item ∈ items, smaller item ≤ bytes item) (ordered : earlier ≤ later) :
    packEnd smaller align earlier (items.filter fewer) ≤
      packEnd bytes align later (items.filter more) := by
  induction items generalizing earlier later with
  | nil => exact ordered
  | cons item rest hyp =>
    rw [forall_mem_cons] at pos within small
    have next : ∀ {first second : Nat}, first ≤ second →
        packEnd smaller align first (rest.filter fewer) ≤
          packEnd bytes align second (rest.filter more) := hyp pos.2 within.2 small.2
    have behind := le_firstAligned later pos.1
    cases isMore : more item with
    | false =>
      have notFewer : ¬ fewer item = true := fun isFewer => by
        rw [within.1 isFewer] at isMore
        cases isMore
      rw [filter_cons_of_neg notFewer, filter_cons_of_neg (ne_true_of_eq_false isMore)]
      exact next ordered
    | true =>
      rw [filter_cons_of_pos isMore]
      by_cases isFewer : fewer item = true
      · rw [filter_cons_of_pos isFewer]
        refine next (Nat.add_le_add ?_ small.1)
        exact firstAligned_le pos.1 (firstAligned_mod _ _) (Nat.le_trans ordered behind)
      · rw [filter_cons_of_neg isFewer]
        exact next (by omega)

/-- No arrangement in the same order ends before the packed one. -/
theorem packEnd_le (inOrder : InOrder bytes start address stop items)
    (pos : ∀ item ∈ items, 0 < align item)
    (isAligned : ∀ item ∈ items, start item % align item = 0) :
    packEnd bytes align address items ≤ stop := by
  induction items generalizing address with
  | nil => exact inOrder
  | cons item rest hyp =>
    rw [forall_mem_cons] at pos isAligned
    refine Nat.le_trans ?_ (hyp inOrder.2 pos.2 isAligned.2)
    exact packEnd_mono pos.2 (Nat.add_le_add_right (firstAligned_le pos.1 isAligned.1 inOrder.1) _)

/-- Blocks at their packed places lie behind each other and are aligned. -/
theorem inOrder_of_packStarts (pos : ∀ item ∈ items, 0 < align item)
    (isPacked : items.map start = packStarts bytes align address items) :
    InOrder bytes start address (packEnd bytes align address items) items ∧
      ∀ item ∈ items, start item % align item = 0 := by
  induction items generalizing address with
  | nil => exact ⟨Nat.le_refl address, nofun⟩
  | cons item rest hyp =>
    rw [forall_mem_cons] at pos ⊢
    obtain ⟨isFirst, isRest⟩ := List.cons.inj isPacked
    obtain ⟨inOrder, isAligned⟩ := hyp pos.2 isRest
    rw [InOrder, isFirst]
    exact ⟨⟨le_firstAligned _ pos.1, inOrder⟩, firstAligned_mod _ _, isAligned⟩

end Packing
