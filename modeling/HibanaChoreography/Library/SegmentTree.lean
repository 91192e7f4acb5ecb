/-
This file is about trees of joins over a sequence of any length.

The leaves of a tree of length `len` are the nodes `len`, …, `2 * len - 1`, and each
node in front of them joins the nodes `2 * node` and `2 * node + 1`. A query walks up
from both ends of an interval of leaves. On every level it is left with an interval of
nodes, all of them in front of the end of the leaves, so the length need not be a power
of two.
-/

import Mathlib.Logic.Function.Basic
import Mathlib.Order.Lattice
import Mathlib.Tactic.Common

namespace SegmentTree

variable {α : Type} [Max α] (node : Nat → α)

/-- Join the children of every node in front of a position, from the last to the first. -/
def buildParents (node : Nat → α) : Nat → Nat → α
  | 0 | 1 => node
  | count + 2 =>
    buildParents (Function.update node (count + 1)
      (node ((count + 1) * 2) ⊔ node ((count + 1) * 2 + 1))) (count + 1)

theorem buildParents_of_le {count position : Nat} (behind : count ≤ position) :
    buildParents node count position = node position := by
  fun_induction buildParents node count with
  | case1 | case2 => rfl
  | case3 node count hyp => rw [hyp (by omega), Function.update_of_ne (by omega)]

/-- A node in front of the leaves is the join of its children. -/
theorem buildParents_of_lt {count position : Nat} (positive : 1 ≤ position)
    (isBefore : position < count) :
    buildParents node count position =
      buildParents node count (position * 2) ⊔ buildParents node count (position * 2 + 1) := by
  fun_induction buildParents node count with
  | case1 | case2 => omega
  | case3 node count hyp =>
    rcases Nat.lt_or_ge position (count + 1) with earlier | last
    · exact hyp earlier
    · obtain rfl : position = count + 1 := by omega
      rw [buildParents_of_le _ le_rfl, buildParents_of_le _ (by omega),
        buildParents_of_le _ (by omega), Function.update_self,
        Function.update_of_ne (by omega), Function.update_of_ne (by omega)]

/-- The nodes that a query meets: the odd ends of the interval, and those of the levels above. -/
def visits (left right : Nat) : List Nat :=
  if left < right then
    (if left % 2 = 1 then [left] else []) ++ (if right % 2 = 1 then [right - 1] else []) ++
      visits ((left + left % 2) / 2) ((right - right % 2) / 2)
  else []
termination_by right

/-- What holds of a node when it holds of a child holds somewhere in an interval exactly when it
holds of a node that the query meets. -/
theorem exists_mem_visits {holds : Nat → Prop} {len left right : Nat}
    (isParent : ∀ node, 1 ≤ node → node < len →
      (holds node ↔ holds (node * 2) ∨ holds (node * 2 + 1)))
    (positive : left < right → 1 ≤ left) (inside : right ≤ 2 * len) :
    (∃ node ∈ visits left right, holds node) ↔ ∃ node, left ≤ node ∧ node < right ∧ holds node := by
  fun_induction visits left right with
  | case1 left right isBefore hyp =>
    simp only [List.mem_append, or_and_right, exists_or, hyp (by omega) (by omega)]
    constructor
    · rintro ((⟨node, mem, isHeld⟩ | ⟨node, mem, isHeld⟩) | ⟨node, low, high, isHeld⟩)
      · split at mem <;> simp_all only [List.mem_singleton, List.not_mem_nil]
        exact ⟨left, le_rfl, isBefore, isHeld⟩
      · split at mem <;> simp_all only [List.mem_singleton, List.not_mem_nil]
        exact ⟨right - 1, by omega, by omega, isHeld⟩
      · rcases (isParent node (by omega) (by omega)).mp isHeld with isHeld | isHeld
        · exact ⟨_, by omega, by omega, isHeld⟩
        · exact ⟨_, by omega, by omega, isHeld⟩
    · rintro ⟨node, low, high, isHeld⟩
      by_cases isLeft : node = left ∧ left % 2 = 1
      · exact .inl (.inl ⟨node, by simp [isLeft], isHeld⟩)
      · by_cases isRight : node = right - 1 ∧ right % 2 = 1
        · exact .inl (.inr ⟨node, by simp [isRight], isHeld⟩)
        · obtain ⟨half, rfl | rfl⟩ : ∃ half, node = half * 2 ∨ node = half * 2 + 1 :=
            ⟨node / 2, by omega⟩
          · exact .inr ⟨half, by omega, by omega,
              (isParent _ (by omega) (by omega)).mpr (.inl isHeld)⟩
          · exact .inr ⟨half, by omega, by omega,
              (isParent _ (by omega) (by omega)).mpr (.inr isHeld)⟩
  | case2 left right isEnd =>
    simp only [List.not_mem_nil, false_and, exists_false, false_iff, not_exists]
    omega

end SegmentTree
