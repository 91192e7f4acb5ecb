/-
This file is a small theory of reordered runs.

A run applies a list of actions to a state, one after the other, and every action
sees a part of the state just before it acts. Two actions are independent when
they commute and neither changes what the other sees. If two lists hold the same
actions, and every pair that they order differently is independent, then every
action sees the same in both runs.
-/

import Mathlib.Data.List.Basic
import Mathlib.Data.List.Nodup
import Mathlib.Data.List.Perm.Basic

namespace Interleaving

open List

variable {Action State View : Type} (step : State → Action → State) (view : Action → State → View)

/-- The actions commute, and neither changes what the other sees. -/
structure Independent (first second : Action) : Prop where
  commute : ∀ state, step (step state first) second = step (step state second) first
  firstView : ∀ state, view first (step state second) = view first state
  secondView : ∀ state, view second (step state first) = view second state

variable {step view} {first : Action} {actions before after : List Action}

/-- An action moves over a run of actions that it is independent of. -/
theorem foldl_step_comm (independent : ∀ action ∈ actions, Independent step view first action)
    (state : State) :
    actions.foldl step (step state first) = step (actions.foldl step state) first := by
  induction actions generalizing state with
  | nil => rfl
  | cons action actions hyp =>
    rw [foldl_cons, foldl_cons, (independent action mem_cons_self).commute state,
      hyp fun other mem => independent other (mem_cons_of_mem _ mem)]

/-- An action does not see a run of actions that it is independent of. -/
theorem view_foldl (independent : ∀ action ∈ actions, Independent step view first action)
    (state : State) : view first (actions.foldl step state) = view first state := by
  induction actions generalizing state with
  | nil => rfl
  | cons action actions hyp =>
    rw [foldl_cons, hyp fun other mem => independent other (mem_cons_of_mem _ mem),
      (independent action mem_cons_self).firstView]

/-- Pairs that the two lists order differently are independent. -/
def Respects (step : State → Action → State) (view : Action → State → View)
    (actions order : List Action) : Prop :=
  ∀ first second, List.Sublist [first, second] actions → List.Sublist [second, first] order →
    Independent step view first second

theorem pair_sublist_of_mem {second : Action} (mem : first ∈ before) :
    List.Sublist [first, second] (before ++ second :: after) :=
  List.Sublist.append (singleton_sublist.mpr mem)
    (singleton_sublist.mpr mem_cons_self)

/-- Without its first action, a list is still respected by an order without that action. -/
theorem Respects.tail
    (respects : Respects step view (first :: actions) (before ++ first :: after)) :
    Respects step view actions (before ++ after) := by
  intro one other inActions inOrder
  refine respects one other (inActions.trans (sublist_cons_self _ _)) (inOrder.trans ?_)
  exact List.Sublist.append (List.Sublist.refl _) (sublist_cons_self _ _)

/-- Every action sees the same in both runs. -/
theorem view_eq {order : List Action} (distinct : actions.Nodup) (permuted : order.Perm actions)
    (respects : Respects step view actions order) (state : State) {action : Action}
    {orderBefore orderAfter : List Action} (inActions : actions = before ++ action :: after)
    (inOrder : order = orderBefore ++ action :: orderAfter) :
    view action (orderBefore.foldl step state) = view action (before.foldl step state) := by
  -- The first action moves to the front of the order, over actions it is independent of.
  induction actions generalizing order state before orderBefore orderAfter with
  | nil => simp at inActions
  | cons first actions hyp =>
    obtain ⟨notMember, distinctTail⟩ := nodup_cons.mp distinct
    obtain ⟨front, back, isOrder⟩ :=
      append_of_mem (permuted.mem_iff.mpr mem_cons_self)
    subst isOrder
    have tailPermuted : (front ++ back).Perm actions :=
      (perm_middle.symm.trans permuted).cons_inv
    have independent : ∀ other ∈ front, Independent step view first other := by
      intro other mem
      have inTail : other ∈ actions := tailPermuted.mem_iff.mp (mem_append_left _ mem)
      exact respects first other
        ((singleton_sublist.mpr inTail).cons_cons first) (pair_sublist_of_mem mem)
    cases before with
    | nil =>
      obtain ⟨rfl, rfl⟩ := List.cons.inj inActions
      have fresh : first ∉ front := fun mem =>
        notMember (tailPermuted.mem_iff.mp (mem_append_left _ mem))
      have freshBack : first ∉ back := fun mem =>
        notMember (tailPermuted.mem_iff.mp (mem_append_right _ mem))
      obtain ⟨rfl, _⟩ := (append_cons_inj_of_notMem fresh freshBack).mp inOrder
      exact view_foldl independent state
    | cons head before =>
      obtain ⟨rfl, rfl⟩ := List.cons.inj inActions
      have ne : action ≠ first := by
        rintro rfl
        exact notMember (mem_append_right _ mem_cons_self)
      rcases append_eq_append_iff.mp inOrder with
        ⟨between, rfl, isRest⟩ | ⟨between, rfl, isRest⟩
      · cases between with
        | nil => exact absurd (List.cons.inj isRest).1.symm ne
        | cons moved between =>
          obtain ⟨rfl, rfl⟩ := List.cons.inj isRest
          have seen := hyp distinctTail tailPermuted respects.tail
            (step state first) rfl (append_assoc front between _).symm
          rw [foldl_append, foldl_step_comm independent] at seen
          rw [foldl_append, foldl_cons, foldl_cons, seen]
      · cases between with
        | nil => exact absurd (List.cons.inj isRest).1 ne
        | cons moved between =>
          obtain ⟨rfl, rfl⟩ := List.cons.inj isRest
          have seen := hyp distinctTail tailPermuted respects.tail
            (step state first) rfl (append_assoc orderBefore _ back)
          have earlier : ∀ other ∈ orderBefore, Independent step view first other :=
            fun other mem => independent other (mem_append_left _ mem)
          have own := independent action (mem_append_right _ mem_cons_self)
          rw [foldl_cons, ← seen, foldl_step_comm earlier, own.secondView]

end Interleaving
