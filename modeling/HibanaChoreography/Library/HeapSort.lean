/-
This file is about sorting positions in place with a binary heap.

An array is a map from positions to items, and every change of it is an exchange
of two of its positions, so that a sorted array is the given one behind a
permutation of the positions. Sinking a root repairs a heap that is in order
everywhere but there. The heap is built from the last root to the first, and then
its greatest item is moved behind it again and again: what lies behind the heap is
in order and bounds what is still in it.
-/

import Mathlib.Logic.Equiv.Basic
import Mathlib.Order.Lattice
import Mathlib.Order.Nat
import Mathlib.Tactic.Common

namespace HeapSort

variable {Item Key : Type} [LinearOrder Key]

/-! ### The algorithm -/

/-- The child of a root with the greater key; the first one when the keys agree. -/
def greaterChild (key : Item → Key) (stop root : Nat) (order : Nat → Item) : Nat :=
  if 2 * root + 2 < stop ∧ key (order (2 * root + 1)) < key (order (2 * root + 2)) then
    2 * root + 2
  else 2 * root + 1

theorem lt_greaterChild (key : Item → Key) (stop root : Nat) (order : Nat → Item) :
    root < greaterChild key stop root order := by
  unfold greaterChild
  split <;> omega

/-- Sink a root until no child is greater. -/
def sift (key : Item → Key) (stop root : Nat) (order : Nat → Item) : Nat → Item :=
  if 2 * root + 1 < stop then
    if key (order (greaterChild key stop root order)) ≤ key (order root) then order
    else
      sift key stop (greaterChild key stop root order)
        (order ∘ Equiv.swap root (greaterChild key stop root order))
  else order
termination_by stop - root
decreasing_by
  have := lt_greaterChild key stop root order
  omega

/-- Sink every root in front of a position, from the last one on. -/
def build (key : Item → Key) (stop : Nat) : Nat → (Nat → Item) → Nat → Item
  | 0, order => order
  | root + 1, order => build key stop root (sift key stop root order)

/-- Move the first item behind the heap until one item is left. -/
def drain (key : Item → Key) : Nat → (Nat → Item) → Nat → Item
  | 0, order | 1, order => order
  | stop + 2, order =>
    drain key (stop + 1) (sift key (stop + 1) 0 (order ∘ Equiv.swap (stop + 1) 0))

/-- Sort the positions below a length by the keys of their items. -/
def sort (key : Item → Key) (length : Nat) (order : Nat → Item) : Nat → Item :=
  drain key length (build key length (length / 2) order)

/-! ### Heaps -/

/-- A child of a position in the implicit tree. -/
def IsChild (child parent : Nat) : Prop := child = 2 * parent + 1 ∨ child = 2 * parent + 2

/-- From a position on, no child inside the heap is greater than its parent. -/
def Ordered (key : Item → Key) (low stop : Nat) (order : Nat → Item) : Prop :=
  ∀ parent child, low ≤ parent → IsChild child parent → child < stop →
    key (order child) ≤ key (order parent)

/-- A heap but for one root, whose children are still below the parent of the root. -/
structure OrderedExcept (key : Item → Key) (low stop root : Nat) (order : Nat → Item) : Prop where
  others : ∀ parent child, low ≤ parent → parent ≠ root → IsChild child parent → child < stop →
    key (order child) ≤ key (order parent)
  below : ∀ parent child, low ≤ parent → IsChild root parent → IsChild child root →
    child < stop → key (order child) ≤ key (order parent)

theorem greaterChild_isChild (key : Item → Key) (stop root : Nat) (order : Nat → Item) :
    IsChild (greaterChild key stop root order) root := by
  unfold greaterChild
  split
  · exact .inr rfl
  · exact .inl rfl

variable {key : Item → Key} {stop root : Nat} {order : Nat → Item}

theorem greaterChild_lt (inside : 2 * root + 1 < stop) :
    greaterChild key stop root order < stop := by
  unfold greaterChild
  split
  · rename_i both
    exact both.1
  · exact inside

theorem le_greaterChild {child : Nat} (isChild : IsChild child root) (inside : child < stop) :
    key (order child) ≤ key (order (greaterChild key stop root order)) := by
  unfold greaterChild
  split
  · rename_i second
    rcases isChild with rfl | rfl
    · exact second.2.le
    · exact le_rfl
  · rename_i first
    rcases isChild with rfl | rfl
    · exact le_rfl
    · exact le_of_not_gt fun greater => first ⟨inside, greater⟩

/-- A root that no child exceeds completes the heap. -/
theorem OrderedExcept.complete {low : Nat} (ordered : OrderedExcept key low stop root order)
    (least : ∀ child, IsChild child root → child < stop → key (order child) ≤ key (order root)) :
    Ordered key low stop order := by
  intro parent child fromLow isChild inside
  by_cases isRoot : parent = root
  · subst isRoot
    exact least child isChild inside
  · exact ordered.others parent child fromLow isRoot isChild inside

/-- Exchanging a root with its greater child leaves only the child out of order. -/
theorem OrderedExcept.exchange {low : Nat} (ordered : OrderedExcept key low stop root order)
    (fromLow : low ≤ root) (inside : 2 * root + 1 < stop)
    (greater : key (order root) < key (order (greaterChild key stop root order))) :
    OrderedExcept key low stop (greaterChild key stop root order)
      (order ∘ Equiv.swap root (greaterChild key stop root order)) := by
  have isGreater := greaterChild_isChild key stop root order
  have greatest : ∀ child, IsChild child root → child < stop →
      key (order child) ≤ key (order (greaterChild key stop root order)) :=
    fun child isChild => le_greaterChild isChild
  have isInside : greaterChild key stop root order < stop := greaterChild_lt inside
  generalize greaterChild key stop root order = next at *
  have behind : root < next := by
    rcases isGreater with rfl | rfl <;> omega
  have elsewhere : ∀ position, position ≠ root → position ≠ next →
      (order ∘ Equiv.swap root next) position = order position := by
    intro position notRoot notNext
    rw [Function.comp_apply, Equiv.swap_apply_of_ne_of_ne notRoot notNext]
  have atRoot : (order ∘ Equiv.swap root next) root = order next := by
    rw [Function.comp_apply, Equiv.swap_apply_left]
  have atNext : (order ∘ Equiv.swap root next) next = order root := by
    rw [Function.comp_apply, Equiv.swap_apply_right]
  refine ⟨?_, ?_⟩
  · intro parent child parentFrom notNext isChild childInside
    by_cases isRoot : parent = root
    · -- The child that moved up is the greatest of the root and its children.
      subst isRoot
      rw [atRoot]
      by_cases isNext : child = next
      · rw [isNext, atNext]
        exact greater.le
      · rw [elsewhere child (by rcases isChild with rfl | rfl <;> omega) isNext]
        exact greatest child isChild childInside
    · rw [elsewhere parent isRoot notNext]
      by_cases childRoot : child = root
      · subst childRoot
        rw [atRoot]
        exact ordered.below parent next parentFrom isChild isGreater isInside
      · have childNext : child ≠ next := by
          rintro rfl
          exact isRoot (by unfold IsChild at isChild isGreater; omega)
        rw [elsewhere child childRoot childNext]
        exact ordered.others parent child parentFrom isRoot isChild childInside
  · intro parent child parentFrom isParent isChild childInside
    obtain rfl : parent = root := by unfold IsChild at isParent isGreater; omega
    have childBehind : next < child := by rcases isChild with rfl | rfl <;> omega
    rw [atRoot, elsewhere child (by omega) (by omega)]
    exact ordered.others next child (by omega) (by omega) isChild childInside

variable {position : Nat}

/-- Every item of a heap is bounded by the first. -/
theorem Ordered.le_first (ordered : Ordered key 0 stop order) (inside : position < stop) :
    key (order position) ≤ key (order 0) := by
  induction position using Nat.strong_induction_on with
  | _ position hyp =>
    rcases Nat.eq_zero_or_pos position with rfl | pos
    · exact le_rfl
    · exact (ordered ((position - 1) / 2) position (Nat.zero_le _)
        (by unfold IsChild; omega) inside).trans
        (hyp ((position - 1) / 2) (by omega) (by omega))

/-! ### Rearrangements -/

/-- An array is another one behind a permutation of the positions below a bound. -/
def Rearranges (stop : Nat) (before after : Nat → Item) : Prop :=
  ∃ shuffle : Equiv.Perm Nat, after = before ∘ shuffle ∧
    ∀ position, stop ≤ position → shuffle position = position

namespace Rearranges

variable {stop : Nat} {first second third : Nat → Item}

theorem refl (stop : Nat) (order : Nat → Item) : Rearranges stop order order :=
  ⟨Equiv.refl Nat, rfl, fun _ _ => rfl⟩

theorem trans (isFirst : Rearranges stop first second) (isSecond : Rearranges stop second third) :
    Rearranges stop first third := by
  obtain ⟨before, rfl, fixedBefore⟩ := isFirst
  obtain ⟨after, rfl, fixedAfter⟩ := isSecond
  refine ⟨after.trans before, rfl, ?_⟩
  intro position behind
  rw [Equiv.trans_apply, fixedAfter position behind, fixedBefore position behind]

theorem swap {left right : Nat} (leftInside : left < stop) (rightInside : right < stop)
    (order : Nat → Item) : Rearranges stop order (order ∘ Equiv.swap left right) :=
  ⟨Equiv.swap left right, rfl, fun position behind =>
    Equiv.swap_apply_of_ne_of_ne (by omega) (by omega)⟩

theorem mono {wider : Nat} (rearranges : Rearranges stop first second) (le : stop ≤ wider) :
    Rearranges wider first second := by
  obtain ⟨shuffle, isShuffle, fixed⟩ := rearranges
  exact ⟨shuffle, isShuffle, fun position behind => fixed position (le.trans behind)⟩

theorem apply_of_le (rearranges : Rearranges stop first second) (behind : stop ≤ position) :
    second position = first position := by
  obtain ⟨shuffle, rfl, fixed⟩ := rearranges
  rw [Function.comp_apply, fixed position behind]

/-- What the array holds below the bound, it held below the bound before. -/
theorem exists_lt (rearranges : Rearranges stop first second) (inside : position < stop) :
    ∃ origin, origin < stop ∧ second position = first origin := by
  obtain ⟨shuffle, rfl, fixed⟩ := rearranges
  refine ⟨shuffle position, ?_, rfl⟩
  by_contra behind
  have isFixed := shuffle.injective (fixed (shuffle position) (Nat.le_of_not_lt behind))
  omega

/-- What the array held below the bound, it holds below the bound. -/
theorem exists_lt_of_origin (rearranges : Rearranges stop first second) {origin : Nat}
    (inside : origin < stop) : ∃ position, position < stop ∧ second position = first origin := by
  obtain ⟨shuffle, rfl, fixed⟩ := rearranges
  refine ⟨shuffle.symm origin, ?_, by rw [Function.comp_apply, Equiv.apply_symm_apply]⟩
  by_contra behind
  have isFixed := fixed (shuffle.symm origin) (Nat.le_of_not_lt behind)
  rw [Equiv.apply_symm_apply] at isFixed
  omega

end Rearranges

/-! ### Sinking, building and draining -/

/-- Sinking a root rearranges the heap and puts it in order. -/
theorem sift_spec (key : Item → Key) (low stop root : Nat) (order : Nat → Item)
    (fromLow : low ≤ root) (ordered : OrderedExcept key low stop root order) :
    Ordered key low stop (sift key stop root order) ∧
      Rearranges stop order (sift key stop root order) := by
  induction root, order using sift.induct key stop with
  | case1 root order inside least =>
    rw [sift, if_pos inside, if_pos least]
    exact ⟨ordered.complete fun child isChild childInside =>
      (le_greaterChild isChild childInside).trans least, Rearranges.refl stop order⟩
  | case2 root order inside greater hyp =>
    rw [sift, if_pos inside, if_neg greater]
    have behind := lt_greaterChild key stop root order
    obtain ⟨isOrdered, rearranges⟩ := hyp (fromLow.trans behind.le)
      (ordered.exchange fromLow inside (lt_of_not_ge greater))
    exact ⟨isOrdered, (Rearranges.swap (by omega) (greaterChild_lt inside) order).trans rearranges⟩
  | case3 root order outside =>
    rw [sift, if_neg outside]
    refine ⟨ordered.complete fun child isChild inside => absurd inside ?_,
      Rearranges.refl stop order⟩
    unfold IsChild at isChild
    omega

/-- Sinking the roots from the last to the first builds a heap. -/
theorem build_spec (key : Item → Key) (stop root : Nat) (order : Nat → Item)
    (ordered : Ordered key root stop order) :
    Ordered key 0 stop (build key stop root order) ∧
      Rearranges stop order (build key stop root order) := by
  induction root generalizing order with
  | zero => exact ⟨ordered, Rearranges.refl stop order⟩
  | succ root hyp =>
    have sunk := sift_spec key root stop root order le_rfl {
      others := fun parent child fromRoot notRoot =>
        ordered parent child (Nat.lt_of_le_of_ne fromRoot (Ne.symm notRoot))
      below := fun parent child fromRoot isParent => by
        unfold IsChild at isParent
        omega }
    obtain ⟨isOrdered, rearranges⟩ := hyp _ sunk.1
    exact ⟨isOrdered, sunk.2.trans rearranges⟩

/-- A heap with a sorted rest behind it that bounds the heap. -/
structure Draining (key : Item → Key) (length stop : Nat) (order : Nat → Item) : Prop where
  heap : Ordered key 0 stop order
  sorted : ∀ first second, stop ≤ first → first ≤ second → second < length →
    key (order first) ≤ key (order second)
  bounded : ∀ inner outer, inner < stop → stop ≤ outer → outer < length →
    key (order inner) ≤ key (order outer)

/-- One round moves the greatest item of the heap in front of the rest. -/
theorem Draining.step {length : Nat} (draining : Draining key length (stop + 1) order)
    (pos : 0 < stop) :
    Draining key length stop (sift key stop 0 (order ∘ Equiv.swap stop 0)) ∧
      Rearranges (stop + 1) order (sift key stop 0 (order ∘ Equiv.swap stop 0)) := by
  have atStop : (order ∘ Equiv.swap stop 0) stop = order 0 := by
    rw [Function.comp_apply, Equiv.swap_apply_left]
  have elsewhere : ∀ position, position ≠ stop → position ≠ 0 →
      (order ∘ Equiv.swap stop 0) position = order position := by
    intro position notStop notZero
    rw [Function.comp_apply, Equiv.swap_apply_of_ne_of_ne notStop notZero]
  have exchanged := Rearranges.swap (Nat.lt_succ_self stop) (Nat.succ_pos stop) order
  obtain ⟨isOrdered, rearranges⟩ := sift_spec key 0 stop 0 (order ∘ Equiv.swap stop 0) le_rfl {
      others := fun parent child _ notRoot isChild inside => by
        have below : parent < child := by unfold IsChild at isChild; omega
        rw [elsewhere parent (by omega) notRoot, elsewhere child (by omega) (by omega)]
        exact draining.heap parent child (Nat.zero_le _) isChild (by omega)
      below := fun parent child _ isParent => by
        unfold IsChild at isParent
        omega }
  -- The rest is the item that was first, followed by the rest of before.
  have behind : ∀ position, stop ≤ position → position ≠ stop →
      sift key stop 0 (order ∘ Equiv.swap stop 0) position = order position := by
    intro position isBehind notStop
    rw [rearranges.apply_of_le isBehind, elsewhere position notStop (by omega)]
  have first : sift key stop 0 (order ∘ Equiv.swap stop 0) stop = order 0 := by
    rw [rearranges.apply_of_le le_rfl, atStop]
  refine ⟨⟨isOrdered, ?_, ?_⟩, exchanged.trans (rearranges.mono (Nat.le_succ stop))⟩
  · intro lower upper isLower le inside
    by_cases upperFirst : upper = stop
    · obtain rfl : lower = upper := by omega
      exact le_rfl
    · rw [behind upper (by omega) upperFirst]
      by_cases lowerFirst : lower = stop
      · rw [lowerFirst, first]
        exact draining.bounded 0 upper (by omega) (by omega) inside
      · rw [behind lower isLower lowerFirst]
        exact draining.sorted lower upper (by omega) le inside
  · intro inner outer isInner isOuter inside
    obtain ⟨origin, originInside, isOrigin⟩ :=
      (exchanged.trans (rearranges.mono (Nat.le_succ stop))).exists_lt (Nat.lt_succ_of_lt isInner)
    rw [isOrigin]
    by_cases outerFirst : outer = stop
    · rw [outerFirst, first]
      exact draining.heap.le_first originInside
    · rw [behind outer isOuter outerFirst]
      exact draining.bounded origin outer originInside (by omega) inside

/-- Draining a heap sorts it. -/
theorem drain_spec (key : Item → Key) (length stop : Nat) (order : Nat → Item)
    (draining : Draining key length stop order) (inside : stop ≤ length) :
    (∀ first second, first ≤ second → second < length →
        key (drain key stop order first) ≤ key (drain key stop order second)) ∧
      Rearranges length order (drain key stop order) := by
  induction stop generalizing order with
  | zero =>
    exact ⟨fun first second => draining.sorted first second (Nat.zero_le _),
      Rearranges.refl length order⟩
  | succ stop hyp =>
    cases stop with
    | zero =>
      refine ⟨fun first second le isInside => ?_, Rearranges.refl length order⟩
      rcases Nat.eq_zero_or_pos first with rfl | pos
      · rcases Nat.eq_zero_or_pos second with rfl | behind
        · exact le_rfl
        · exact draining.bounded 0 second Nat.one_pos behind isInside
      · exact draining.sorted first second pos le isInside
    | succ stop =>
      obtain ⟨isDraining, rearranges⟩ := draining.step (Nat.succ_pos stop)
      obtain ⟨sorted, rest⟩ := hyp _ isDraining (Nat.le_of_succ_le inside)
      exact ⟨sorted, (rearranges.mono inside).trans rest⟩

/-- Sorting rearranges the positions below the length and puts their keys in order. -/
theorem sort_spec (key : Item → Key) (length : Nat) (order : Nat → Item) :
    (∀ first second, first ≤ second → second < length →
        key (sort key length order first) ≤ key (sort key length order second)) ∧
      Rearranges length order (sort key length order) := by
  obtain ⟨isHeap, built⟩ := build_spec key length (length / 2) order (by
    intro parent child fromHalf isChild inside
    unfold IsChild at isChild
    omega)
  obtain ⟨sorted, drained⟩ := drain_spec key length length (build key length (length / 2) order) {
      heap := isHeap
      sorted := fun first second behind le inside => by omega
      bounded := fun inner outer _ behind inside => by omega } le_rfl
  exact ⟨sorted, built.trans drained⟩

end HeapSort
