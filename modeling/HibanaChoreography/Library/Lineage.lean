/-
This file is about chains of steps in a forest.

A step leaves a node, and the parent of a node is the step above it, so every node has
one chain of steps to its root. A chain of steps therefore contains another one exactly
when it ends with it, and the step of a node stands at the same distance from the root in
all chains that pass it.
-/

import Mathlib.Data.List.Basic

namespace Lineage

open List

variable {Step Node : Type} (node : Step → Node) (parent : Node → Option Step)

/-- The steps from a node up to its root. -/
def Climbs : List Step → Prop
  | [] => True
  | step :: above => parent (node step) = above.head? ∧ Climbs above

variable {node parent} {steps others above : List Step} {step : Step}

/-- The steps above a node depend on nothing else. -/
theorem Climbs.above_eq {other : Step} (climbs : Climbs node parent (step :: above))
    (otherClimbs : Climbs node parent (other :: others)) (same : node step = node other) :
    above = others := by
  induction above generalizing step other others with
  | nil =>
    have isRoot : others.head? = none := by rw [← otherClimbs.1, ← same, climbs.1, head?_nil]
    exact (head?_eq_none_iff.mp isRoot).symm
  | cons next rest hyp =>
    have isNext : others.head? = some next := by
      rw [← otherClimbs.1, ← same, climbs.1, head?_cons]
    obtain ⟨tail, rfl⟩ := head?_eq_some_iff.mp isNext
    rw [hyp climbs.2 otherClimbs.2 rfl]

theorem Climbs.of_append (climbs : Climbs node parent (steps ++ others)) :
    Climbs node parent others := by
  induction steps with
  | nil => exact climbs
  | cons step rest hyp => exact hyp climbs.2

/-- A chain ends with the chain of every node that it passes. -/
theorem Climbs.suffix_of_mem (climbs : Climbs node parent steps)
    (otherClimbs : Climbs node parent (step :: above)) {passed : Step} (mem : passed ∈ steps)
    (same : node passed = node step) : passed :: above <:+ steps := by
  obtain ⟨front, rest, rfl⟩ := append_of_mem mem
  rw [climbs.of_append.above_eq otherClimbs same]
  exact suffix_append front _

theorem Climbs.subset_iff_suffix (climbs : Climbs node parent steps)
    (otherClimbs : Climbs node parent others) : others ⊆ steps ↔ others <:+ steps := by
  refine ⟨fun contained => ?_, List.IsSuffix.subset⟩
  cases others with
  | nil => exact nil_suffix
  | cons step above => exact climbs.suffix_of_mem otherClimbs (contained mem_cons_self) rfl

/-- A chain passes no node twice. -/
theorem Climbs.nodup (climbs : Climbs node parent steps) : (steps.map node).Nodup := by
  induction steps with
  | nil => exact nodup_nil
  | cons step above hyp =>
    refine nodup_cons.mpr ⟨fun mem => ?_, hyp climbs.2⟩
    obtain ⟨passed, isPassed, same⟩ := mem_map.mp mem
    have isLonger := (climbs.2.suffix_of_mem climbs isPassed same).length_le
    rw [length_cons] at isLonger
    exact Nat.not_succ_le_self _ isLonger

/-- From the root, the step of a node comes behind as many steps as there are above it. -/
theorem Climbs.getElem?_reverse (climbs : Climbs node parent steps)
    (otherClimbs : Climbs node parent (step :: above)) {passed : Step} (mem : passed ∈ steps)
    (same : node passed = node step) : steps.reverse[above.length]? = some passed := by
  obtain ⟨front, rfl⟩ := climbs.suffix_of_mem otherClimbs mem same
  rw [reverse_append, reverse_cons, append_assoc, ← length_reverse,
    getElem?_append_right (Nat.le_refl _), Nat.sub_self]
  rfl

end Lineage
