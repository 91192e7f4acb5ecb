/-
This file models the test of a row against a selection of route arms, in
`typestate/cursor/scope_route/navigation.rs`, and the end of an arm that excludes a row.

The test takes the decisions above the row from the inside out and stops at the first one
that the selection contradicts. All rows of that arm are excluded with the row.
-/

import HibanaChoreography.Endpoint.RoleImages

namespace Hibana

open Outcome Lineage List

/-- The arms that are selected so far. -/
abbrev SelectedArms := ScopeId → Option Nat

inductive ConflictAdmission where
  | allowed
  | excluded (decision : RouteArm)
  | invalid
  deriving DecidableEq, Repr

namespace RoleRows

variable (image : RoleRows)

/-- The decisions around a decision, from the outermost one. -/
def ancestorRows (conflict : PackedEventConflict) : Run (List PackedEventConflict) := do
  match ← image.routeCommitRangeForConflict conflict with
  | none => return []
  | some chain => image.routeCommitRowsOf ⟨chain.start, chain.len - 1⟩

/-- The decision of a row, then its ancestors from inner to outer, then an absent row, and of
these as many as there are routes and one more. -/
def routeConflictGuardRows (conflict : PackedEventConflict) : Run (List PackedEventConflict) := do
  let ancestors ← image.ancestorRows conflict
  return (conflict :: (ancestors.reverse ++ [.none])).take (image.routeScopes.length + 1)

/-- The first decision that a selection contradicts. -/
def admissionOf (selected : SelectedArms) : List PackedEventConflict → ConflictAdmission
  | [] => .invalid
  | row :: rest =>
    match row.toConflict with
    | none => .allowed
    | some decision =>
      match selected decision.scope with
      | some arm => if arm ≠ decision.arm then .excluded decision else admissionOf selected rest
      | none => admissionOf selected rest

def eventConflictForIndex (row : Nat) : PackedEventConflict :=
  (image.steps[row]?.map LocalStep.conflict).getD .none

def admission (conflict : PackedEventConflict) (selected : SelectedArms) :
    Run ConflictAdmission := do
  return admissionOf selected (← image.routeConflictGuardRows conflict)

def eventConflictRowAdmission (conflict : PackedEventConflict) (previewScope : Option ScopeId)
    (previewArm : Option Nat) (selected : SelectedArms) : Run ConflictAdmission :=
  image.admission conflict fun scope =>
    (selected scope).or (if previewScope = some scope then previewArm else none)

/-- The rows of an arm. -/
def routeArmEventRow (decision : RouteArm) : Run PackedLaneRange :=
  match image.routeScopeSlot decision.scope with
  | none => .error .invariant
  | some slot =>
    match image.routeArms[slot * 2 + decision.arm]? with
    | none => .error .invariant
    | some range =>
      if range = .empty then .error .invariant
      else if 0xffff < range.stop then .error (.panic "event row set range overflow")
      else .ok range

/-- The position behind an arm that holds a row. -/
def excludedArmEnd (row : Nat) (decision : RouteArm) : Run Nat := do
  let range ← image.routeArmEventRow decision
  if row < range.start.toNat ∨ range.stop ≤ row then .error .invariant else return range.stop

/-- The arms that hold a row. -/
def armsAt (row : Nat) : List RouteArm :=
  image.routeScopes.zipIdx.flatMap fun (ordinal, slot) => [0, 1].filterMap fun arm =>
    (image.routeArms[slot * 2 + arm]?.filter fun range =>
      decide (range.start.toNat ≤ row ∧ row < range.stop)).map fun _ => ⟨⟨.route, ordinal⟩, arm⟩

/-- A selection has another arm of a route than the one that holds the row. -/
def isExcluded (selected : SelectedArms) (row : Nat) : Bool :=
  (image.armsAt row).any fun decision =>
    decide (∃ arm ∈ selected decision.scope, arm ≠ decision.arm)

end RoleRows

variable {decision : RouteArm}

/-- The rows of a chain without its last one. -/
theorem RouteColumns.Lists.ancestors {image : RouteColumns} {range : PackedLaneRange}
    {above : List RouteArm} (lists : image.Lists range (decision :: above))
    (present : range.isAbsentOrZeroLen = false) (isLength : range.len.toNat = above.length + 1) :
    ∃ words, image.routeCommitRowsOf ⟨range.start, range.len - 1⟩ = .ok words ∧
      words.map PackedEventConflict.toConflict = above.reverse.map some := by
  obtain ⟨words, isOk, isWords⟩ := lists.rows
  rw [routeCommitRowsOf, present, if_neg Bool.false_ne_true] at isOk
  split at isOk
  · cases isOk
  · rename_i inside
    have one : (1 : UInt16) ≤ range.len := by
      rw [UInt16.le_iff_toNat_le, isLength]
      exact Nat.succ_le_succ (Nat.zero_le _)
    have isLast : (range.len - 1).toNat = above.length := by
      rw [UInt16.toNat_sub_of_le _ _ one, isLength]
      rfl
    have isCount := congrArg List.length isWords
    rw [length_map, length_map, length_reverse, length_cons] at isCount
    have isTake : words.dropLast = image.rowsIn ⟨range.start, range.len - 1⟩ := by
      rw [dropLast_eq_take, isCount, ← Except.ok.inj isOk, rowsIn, rowsIn, take_take, isLast,
        isLength, Nat.add_sub_cancel, Nat.min_eq_left (Nat.le_succ _)]
    have isMapped := congrArg List.dropLast isWords
    rw [← map_dropLast, ← map_dropLast, reverse_cons, dropLast_concat] at isMapped
    refine ⟨words.dropLast, ?_, isMapped⟩
    rw [routeCommitRowsOf, isTake]
    split
    · rename_i isEmpty
      -- A length of one less is not that of the empty range.
      have isZero : range.len - 1 = 0 := (of_decide_eq_true isEmpty).resolve_left fun same => by
        have isFull := congrArg (UInt16.toNat ∘ PackedLaneRange.len) same
        rw [Function.comp_apply, isLast] at isFull
        have small := range.len.toNat_lt
        rw [isLength, show above.length = 0xffff from isFull] at small
        exact absurd small (by decide)
      rw [rowsIn, isZero]
      rfl
    · rw [if_neg]
      rw [PackedLaneRange.stop] at inside ⊢
      dsimp only
      omega

namespace RoleImage

variable {image : RoleImage} {row : Nat} {step : LocalStep}

theorem mem_armsAt (decision : RouteArm) :
    decision ∈ image.armsAt row ↔ InArm image.toRoleRows decision row := by
  simp only [RoleRows.armsAt, mem_flatMap, mem_filterMap, Option.map_eq_some_iff,
    Option.filter_eq_some_iff, decide_eq_true_eq, mem_cons, not_mem_nil, or_false]
  constructor
  · rintro ⟨⟨ordinal, slot⟩, isScope, arm, isArm, range, ⟨isRange, holds⟩, rfl⟩
    exact ⟨Nat.le_one_iff_eq_zero_or_eq_one.mpr isArm, slot, range,
      image.walk_eq.1 slot ordinal (mk_mem_zipIdx_iff_getElem?.mp isScope), isRange, holds⟩
  · rintro ⟨small, slot, range, isSlot, isRange, holds⟩
    obtain ⟨ordinal, isScope, same⟩ := scope_of_slot isSlot
    refine ⟨(ordinal, slot), mk_mem_zipIdx_iff_getElem?.mpr isScope, decision.arm,
      Nat.le_one_iff_eq_zero_or_eq_one.mp small, range, ⟨isRange, holds⟩, ?_⟩
    rw [← same]

/-- The rows that guard a row of the image are the arms that hold it, and an absent row. -/
theorem guardRows (isStep : image.steps[row]? = some step) :
    ∃ rows, image.routeConflictGuardRows step.conflict = .ok rows ∧ ∃ decisions : List RouteArm,
      decisions.map some ++ [none] <+: rows.map PackedEventConflict.toConflict ∧
      ∀ decision, decision ∈ decisions ↔ InArm image.toRoleRows decision row := by
  obtain ⟨opened, isOpen⟩ := openAt isStep
  unfold RoleRows.routeConflictGuardRows RoleRows.ancestorRows
  rcases image.columns.rangeForConflict step.conflict with ⟨isNone, noSlot⟩ |
    ⟨decision, range, above, isDecision, isRange, present, lists, isLength⟩
  · have noneOpen : opened = [] := by
      cases opened with
      | nil => rfl
      | cons route outer =>
        obtain ⟨slot, isContext⟩ := isOpen.nest.1
        cases (noSlot _ isOpen.decides).symm.trans (isRoute isContext).isSlot
    rw [noneOpen] at isOpen
    rw [show image.routeCommitRangeForConflict _ = _ from isNone, Run.bind_ok]
    refine ⟨_, rfl, [], ?_, isOpen.mem_iff⟩
    rw [take_succ_cons, map_cons, show step.conflict.toConflict = none from isOpen.decides]
    exact cons_prefix_cons.mpr ⟨rfl, nil_prefix⟩
  · -- The decisions of the open routes are the chain of the row.
    have isChain : opened.map (·.decisionAt row) = decision :: above := by
      cases opened with
      | nil => cases isDecision.symm.trans isOpen.decides
      | cons route outer =>
        obtain rfl : decision = route.decisionAt row :=
          Option.some.inj (isDecision.symm.trans isOpen.decides)
        have climbs := (isOpen.nest.climbs isOpen.inside).1
        rw [map_cons] at climbs ⊢
        rw [climbs.above_eq lists.climbs rfl]
    have isShort : above.length + 1 ≤ image.routeScopes.length := by
      have isSubset : (decision :: above).map RouteArm.scope ⊆
          image.routeScopes.map (ScopeId.mk .route) := by
        intro scope mem
        obtain ⟨passed, isPassed, rfl⟩ := mem_map.mp mem
        obtain ⟨slot, isSlot⟩ := Option.ne_none_iff_exists'.mp (lists.slotted passed isPassed)
        obtain ⟨ordinal, isScope, same⟩ := scope_of_slot isSlot
        exact mem_map.mpr ⟨ordinal, mem_of_getElem? isScope, same.symm⟩
      have isLe := (subperm_of_subset lists.climbs.nodup isSubset).length_le
      rwa [length_map, length_map] at isLe
    obtain ⟨words, isAncestors, isWords⟩ := lists.ancestors present isLength
    rw [show image.routeCommitRangeForConflict _ = _ from isRange, Run.bind_ok]
    dsimp only
    rw [show image.routeCommitRowsOf _ = _ from isAncestors, Run.bind_ok]
    refine ⟨_, rfl, decision :: above, ?_, fun other => isChain ▸ isOpen.mem_iff other⟩
    have isCount := congrArg List.length isWords
    rw [length_map, length_map, length_reverse] at isCount
    rw [take_of_length_le (by
        rw [length_cons, length_append, length_reverse, isCount]
        exact Nat.succ_le_succ isShort), map_cons, map_cons, map_append,
      map_reverse, isWords, isDecision, map_reverse, reverse_reverse]
    exact prefix_refl _

variable {selected : SelectedArms}

/-- The first decision that a selection contradicts, if there is one. -/
theorem admissionOf_spec {decisions : List RouteArm} {rows : List PackedEventConflict}
    (guards : decisions.map some ++ [none] <+: rows.map PackedEventConflict.toConflict) :
    RoleRows.admissionOf selected rows = .allowed ∧
        (∀ decision ∈ decisions, ¬ ∃ arm ∈ selected decision.scope, arm ≠ decision.arm) ∨
      ∃ decision ∈ decisions, RoleRows.admissionOf selected rows = .excluded decision ∧
        ∃ arm ∈ selected decision.scope, arm ≠ decision.arm := by
  induction decisions generalizing rows with
  | nil =>
    cases rows with
    | nil => cases prefix_nil.mp guards
    | cons row rest =>
      refine .inl ⟨?_, nofun⟩
      rw [RoleRows.admissionOf, ← (cons_prefix_cons.mp guards).1]
  | cons decision decisions hyp =>
    cases rows with
    | nil => cases prefix_nil.mp guards
    | cons row rest =>
      obtain ⟨isRow, guards⟩ := cons_prefix_cons.mp guards
      by_cases isOther : ∃ arm ∈ selected decision.scope, arm ≠ decision.arm
      · obtain ⟨arm, isSelected, differs⟩ := isOther
        refine .inr ⟨decision, mem_cons_self, ?_, arm, isSelected, differs⟩
        rw [RoleRows.admissionOf, ← isRow]
        dsimp only
        rw [Option.mem_def.mp isSelected]
        exact if_pos differs
      · have isNext : RoleRows.admissionOf selected (row :: rest) =
            RoleRows.admissionOf selected rest := by
          rw [RoleRows.admissionOf, ← isRow]
          dsimp only
          split
          · rename_i arm isSelected
            exact if_neg fun differs => isOther ⟨arm, isSelected, differs⟩
          · rfl
        rw [isNext]
        rcases hyp guards with ⟨isAllowed, free⟩ | ⟨found, mem, isFound⟩
        · exact .inl ⟨isAllowed, forall_mem_cons.mpr ⟨isOther, free⟩⟩
        · exact .inr ⟨found, mem_cons_of_mem _ mem, isFound⟩

/-- A row is allowed, or it is excluded with all rows up to the end of an arm. -/
theorem admission_spec (isStep : image.steps[row]? = some step) (selected : SelectedArms) :
    image.admission step.conflict selected = .ok .allowed ∧ image.isExcluded selected row = false ∨
      ∃ decision range, image.admission step.conflict selected = .ok (.excluded decision) ∧
        image.routeArmEventRow decision = .ok range ∧
        image.excludedArmEnd row decision = .ok range.stop ∧ row < range.stop ∧
        ∀ other, row ≤ other → other < range.stop → image.isExcluded selected other = true := by
  obtain ⟨rows, isRows, decisions, guards, inArms⟩ := guardRows isStep
  rw [RoleRows.admission, isRows, Run.bind_ok, Run.pure_eq_ok]
  rcases admissionOf_spec guards with ⟨isAllowed, free⟩ | ⟨decision, mem, isExcluded, contradicts⟩
  · refine .inl ⟨congrArg _ isAllowed, ?_⟩
    rw [RoleRows.isExcluded, any_eq_false]
    intro decision mem
    rw [decide_eq_true_eq]
    exact free decision ((inArms decision).mpr ((mem_armsAt decision).mp mem))
  · obtain ⟨small, slot, range, isSlot, isRange, low, high⟩ := (inArms decision).mp mem
    have isRow : image.routeArmEventRow decision = .ok range := by
      have coherent := image.coherent
      simp only [RoleRows.armsAreCoherent, Bool.and_eq_true, decide_eq_true_eq] at coherent
      obtain ⟨⟨⟨_, isShort⟩, allRanges⟩, _⟩ := coherent
      have isValid := of_decide_eq_true (all_eq_true.mp allRanges range
        (mem_of_getElem? isRange))
      rw [RoleRows.routeArmEventRow, isSlot]
      dsimp only
      rw [isRange]
      dsimp only
      rw [if_neg isValid.1, if_neg (Nat.not_lt.mpr (Nat.le_trans isValid.2.2 isShort))]
    refine .inr ⟨decision, range, congrArg _ isExcluded, isRow, ?_, high,
      fun other isLow isHigh => ?_⟩
    · rw [RoleRows.excludedArmEnd, isRow, Run.bind_ok, if_neg (by omega)]
      rfl
    · rw [RoleRows.isExcluded, any_eq_true]
      refine ⟨decision, (mem_armsAt decision).mpr ?_, decide_eq_true contradicts⟩
      exact ⟨small, slot, range, isSlot, isRange, Nat.le_trans low isLow, isHigh⟩

theorem excludedArmEnd_of_admission (isStep : image.steps[row]? = some step)
    (isExcluded : image.admission step.conflict selected = .ok (.excluded decision)) :
    ∃ stop, image.excludedArmEnd row decision = .ok stop ∧ row < stop := by
  rcases admission_spec isStep selected with ⟨isAllowed, _⟩ |
    ⟨other, range, isOther, _, isEnd, isLater, _⟩
  · cases isAllowed.symm.trans isExcluded
  · obtain rfl := ConflictAdmission.excluded.inj (Except.ok.inj (isOther.symm.trans isExcluded))
    exact ⟨range.stop, isEnd, isLater⟩

end RoleImage

end Hibana
