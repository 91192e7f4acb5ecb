/-
This file models the rows of a role image and the arms of its routes, with the walk by
which the constructor checks one against the other, in `image_impl/ref_access/validation.rs`.

The walk keeps the innermost route that is open at a row. It leaves a route through the
decision around it, enters the routes that start at the row, and compares the decision of
the row with the arm that holds it. So in a published image the decisions above a row are
exactly the arms whose rows contain it.
-/

import HibanaChoreography.Endpoint.DecisionChains
import HibanaChoreography.Library.Search
import Mathlib.Data.List.Perm.Subperm

namespace Hibana

open Outcome Lineage List

inductive RoleLocalDirection where
  | selfMessage
  | send
  | recv
  deriving DecidableEq, Repr

/-- An operation of one event, with the event's atom in the program. -/
structure LocalStep where
  effect : Nat
  direction : RoleLocalDirection
  atom : EffAtom
  conflict : PackedEventConflict

/-- The view that an operation belongs to. -/
def LocalStep.logicalRole (step : LocalStep) : UInt8 :=
  if step.direction = .recv then step.atom.receiver else step.atom.sender

/-- A route with rows: its arms, what they cover together, and the decision around it. -/
structure RouteContext where
  scope : ScopeId
  arms : Nat → PackedLaneRange
  start : Nat
  stop : Nat
  parent : PackedEventConflict

/-- The decision of the arm that holds a stretch of rows. -/
def RouteContext.conflict (route : RouteContext) (start stop : Nat) : Run PackedEventConflict :=
  let holds (arm : Nat) : Prop := (route.arms arm).len ≠ 0 ∧
    (route.arms arm).start.toNat ≤ start ∧ stop ≤ (route.arms arm).stop
  if holds 0 then PackedEventConflict.routeArm route.scope 0
  else if holds 1 then PackedEventConflict.routeArm route.scope 1
  else .error .invariant

def intervalConflict (parent : Option RouteContext) (start stop : Nat) : Run PackedEventConflict :=
  match parent with
  | some route => route.conflict start stop
  | none => .ok .none

/-- The columns of a role image that hold its rows: the operations, the rows of every arm, two for
a slot, and the operations in the order of view, lane and row. -/
structure RoleRows extends RouteColumns where
  steps : List LocalStep
  routeArms : List PackedLaneRange
  viewLaneIndex : List Nat

namespace RoleRows

variable (image : RoleRows)

/-- Every slot has two arms with rows of the image, the second one behind the first. -/
def armsAreCoherent : Bool :=
  decide (image.routeArms.length = image.routeScopes.length * 2) &&
  decide (image.routeScopeConflicts.length = image.routeScopes.length) &&
  decide (image.steps.length ≤ 0xffff) &&
  (image.routeArms.all fun row =>
    decide (row ≠ .empty ∧ (row.len = 0 → row.start = 0) ∧ row.stop ≤ image.steps.length)) &&
  (List.range image.routeScopes.length).all fun slot =>
    match image.routeArms[slot * 2]?, image.routeArms[slot * 2 + 1]? with
    | some first, some second =>
      decide (first.len = 0 ∨ second.len = 0 ∨ first.stop = second.start.toNat)
    | _, _ => false

/-- A route, unless both arms are without rows. -/
def routeContext (slot : Nat) : Option RouteContext := do
  let ordinal ← image.routeScopes[slot]?
  let first ← image.routeArms[slot * 2]?
  let second ← image.routeArms[slot * 2 + 1]?
  let parent ← image.routeScopeConflicts[slot]?
  if first.len = 0 ∧ second.len = 0 then none
  else some {
    scope := ⟨.route, ordinal⟩
    arms := fun arm => if arm = 0 then first else second
    start := if first.len = 0 then second.start.toNat else first.start.toNat
    stop := if second.len = 0 then first.stop else second.stop
    parent := parent }

/-- Leave the routes that have ended. A parent is a route above, so there are no more steps than
routes. -/
def leave (row : Nat) : Nat → Option RouteContext → Run (Option RouteContext)
  | 0, _ => .error .fuel
  | _ + 1, none => .ok none
  | fuel + 1, some route =>
    if row < route.stop then .ok (some route)
    else
      match route.parent.toConflict with
      | none => .ok none
      | some decision =>
        match (image.routeScopeSlot decision.scope).bind image.routeContext with
        | none => .error .invariant
        | some around => leave row fuel (some around)

/-- Enter the routes that start at a row. -/
def enter (row : Nat) : Option RouteContext → List Nat → Run (Option RouteContext × List Nat)
  | current, [] => .ok (current, [])
  | current, slot :: rest =>
    match image.routeContext slot with
    | none => enter row current rest
    | some route =>
      if row < route.start then .ok (current, slot :: rest)
      else if route.start < row then .error .invariant
      else do
        let expected ← intervalConflict current route.start route.stop
        if route.parent.singlePass ≠ expected.singlePass then .error .invariant
        else enter row (some route) rest

def walk : Nat → Option RouteContext → List Nat → List LocalStep → Run Bool
  | _, _, pending, [] => .ok (pending.all fun slot => (image.routeContext slot).isNone)
  | row, current, pending, step :: rest => do
    let around ← image.leave row (image.routeScopes.length + 1) current
    let (inner, later) ← image.enter row around pending
    let expected ← intervalConflict inner row (row + 1)
    if step.conflict.singlePass ≠ expected.singlePass then .error .invariant
    else walk (row + 1) inner later rest

/-- Every slot is the one that the index has for its route, and the walk accepts the rows. -/
def validateResidentEvents : Run Bool :=
  if image.routeScopes.zipIdx.all fun (ordinal, slot) =>
      decide (image.routeScopeSlot ⟨.route, ordinal⟩ = some slot) then
    image.walk 0 none (List.range image.routeScopes.length) image.steps
  else .error .invariant

/-- The place of an operation in the order of view, lane and row. -/
def viewLaneStepKey (row : Nat) : Nat :=
  match image.steps[row]? with
  | some step => step.logicalRole.toNat * 2 ^ 24 + step.atom.lane.toNat * 2 ^ 16 + row
  | none => 0

/-- The index has every operation, in order. An image without routes has no index. -/
def viewLaneIndexIsOrdered : Bool :=
  image.routeScopes.isEmpty ||
  (decide (image.viewLaneIndex.length = image.steps.length) &&
    image.viewLaneIndex.all (· < image.steps.length) &&
    decide (image.viewLaneIndex.Pairwise fun first second =>
      image.viewLaneStepKey first < image.viewLaneStepKey second))

def viewLaneStepAt (slot : Nat) : Run Nat :=
  match image.viewLaneIndex[slot]? with
  | some row => if row < image.steps.length then .ok row else .error .invariant
  | none => .error .invariant

/-- The first row of a view and a lane from a position on. -/
def viewLaneStepAtOrAfter (view lane : UInt8) (start : Nat) : Run (Option Nat) :=
  if image.routeScopes.isEmpty ∨ image.steps.length ≤ start then .ok none
  else do
    let key := view.toNat * 2 ^ 24 + lane.toNat * 2 ^ 16 + start
    let low ← lowerBound (fun slot => do
      return decide (image.viewLaneStepKey (← image.viewLaneStepAt slot) < key))
      image.steps.length 0 image.steps.length
    if low = image.steps.length then return none
    else
      let row ← image.viewLaneStepAt low
      return if image.viewLaneStepKey row / 2 ^ 16 = key / 2 ^ 16 then some row else none

def isOfViewLane (view lane : UInt8) (row : Nat) : Bool :=
  image.steps[row]?.any fun step => step.logicalRole = view ∧ step.atom.lane = lane

end RoleRows

/-- A role image that the constructor has published. -/
structure RoleImage extends RoleRows where
  indexed : toRouteColumns.routeIndexIsCoherent = true
  exact : toRouteColumns.routeCommitCapacityIsExact = true
  chained : toRouteColumns.validateRouteCommitChains = true
  coherent : toRoleRows.armsAreCoherent = true
  walked : toRoleRows.validateResidentEvents = .ok true
  ordered : toRoleRows.viewLaneIndexIsOrdered = true

def RoleImage.columns (image : RoleImage) : SealedColumns :=
  { image.toRouteColumns with
    indexed := image.indexed, exact := image.exact, chained := image.chained }

/-! ### Routes with rows -/

/-- The row is one of the rows of an arm. -/
def RouteContext.Holds (route : RouteContext) (arm row : Nat) : Prop :=
  (route.arms arm).start.toNat ≤ row ∧ row < (route.arms arm).stop

instance RouteContext.decidableHolds (route : RouteContext) (arm row : Nat) :
    Decidable (route.Holds arm row) :=
  inferInstanceAs (Decidable (_ ∧ _))

/-- The decision of a route at a row. -/
def RouteContext.decisionAt (route : RouteContext) (row : Nat) : RouteArm :=
  ⟨route.scope, if route.Holds 0 row then 0 else 1⟩

open PackedEventConflict (toConflict routeArm_eq)

theorem PackedEventConflict.toConflict_singlePass (conflict : PackedEventConflict) :
    conflict.singlePass.toConflict = conflict.toConflict := by
  unfold singlePass
  cases isNone : conflict.isNone with
  | true =>
    refine Eq.trans ?_ (if_pos isNone).symm
    rw [if_pos rfl]
    rfl
  | false =>
    have small : PackedEventConflict.isNone ⟨conflict.raw % 2 ^ 14, .inl (by omega)⟩ = false := by
      refine decide_eq_false ?_
      dsimp only
      omega
    rw [if_neg Bool.false_ne_true, toConflict, toConflict, small, isNone,
      if_neg Bool.false_ne_true, if_neg Bool.false_ne_true]
    unfold ScopeId.localCapacity
    refine congrArg some (congrArg₂ RouteArm.mk (congrArg (ScopeId.mk .route) ?_) ?_) <;>
      dsimp only <;> omega

variable {scope : ScopeId}

theorem PackedEventConflict.toConflict_of_routeArm {arm : Nat} {conflict : PackedEventConflict}
    (isArm : routeArm scope arm = .ok conflict) : conflict.toConflict = some ⟨scope, arm⟩ := by
  by_cases valid : scope.kind = .route ∧ scope.ordinal < ScopeId.localCapacity ∧ arm ≤ 1
  · obtain ⟨other, isOther, isDecision⟩ := routeArm_eq valid.1 valid.2.1 valid.2.2
    rw [← Except.ok.inj (isOther.symm.trans isArm)]
    exact isDecision
  · rw [routeArm, dif_neg valid] at isArm
    cases isArm

namespace RoleImage

variable {image : RoleImage} {slot row : Nat} {route : RouteContext}

/-- What a route with rows is in the columns. -/
structure IsRoute (image : RoleImage) (slot : Nat) (route : RouteContext) : Prop where
  isSlot : image.routeScopeSlot route.scope = some slot
  parent : image.parentOf route.scope = route.parent.toConflict
  arms : ∀ arm ≤ 1, image.routeArms[slot * 2 + arm]? = some (route.arms arm)
  holds : ∀ row, route.start ≤ row ∧ row < route.stop ↔ route.Holds 0 row ∨ route.Holds 1 row
  apart : ∀ row, route.Holds 0 row → ¬ route.Holds 1 row
  filled : route.start < route.stop

theorem walk_eq (image : RoleImage) :
    (∀ slot ordinal, image.routeScopes[slot]? = some ordinal →
      image.routeScopeSlot ⟨.route, ordinal⟩ = some slot) ∧
    image.walk 0 none (List.range image.routeScopes.length) image.steps = .ok true := by
  have walked := image.walked
  unfold RoleRows.validateResidentEvents at walked
  split at walked
  · rename_i isExact
    refine ⟨fun slot ordinal isScope => ?_, walked⟩
    exact of_decide_eq_true (all_eq_true.mp isExact (ordinal, slot)
      (mk_mem_zipIdx_iff_getElem?.mpr isScope))
  · cases walked

theorem isRoute (isContext : image.routeContext slot = some route) : image.IsRoute slot route := by
  unfold RoleRows.routeContext at isContext
  simp only [Option.bind_eq_bind, Option.bind_eq_some_iff] at isContext
  obtain ⟨ordinal, isScope, first, isFirst, second, isSecond, parent, isParent,
    isContext⟩ := isContext
  have isSlot := image.walk_eq.1 slot ordinal isScope
  have adjacent : first.len = 0 ∨ second.len = 0 ∨ first.stop = second.start.toNat := by
    have coherent := image.coherent
    rw [RoleRows.armsAreCoherent, Bool.and_eq_true] at coherent
    have isChecked := all_eq_true.mp coherent.2 slot
      (mem_range.mpr (List.getElem?_eq_some_iff.mp isScope).1)
    rw [isFirst, isSecond] at isChecked
    exact of_decide_eq_true isChecked
  have zero : ∀ len : UInt16, len = 0 ↔ len.toNat = 0 := fun len =>
    ⟨fun isZero => isZero ▸ rfl, fun isZero => UInt16.toNat.inj isZero⟩
  split at isContext
  · cases isContext
  · rename_i filled
    obtain rfl := Option.some.inj isContext
    simp only [zero] at adjacent filled
    refine ⟨isSlot, ?_, fun arm small => ?_, fun row => ?_, fun row => ?_, ?_⟩
    · rw [RouteColumns.parentOf, isSlot, Option.bind_some, isParent, Option.bind_some]
    · rcases Nat.le_one_iff_eq_zero_or_eq_one.mp small with rfl | rfl
      · exact isFirst
      · exact isSecond
    all_goals simp only [RouteContext.Holds, if_true, Nat.one_ne_zero, if_false,
      PackedLaneRange.stop, zero] at adjacent ⊢
    · split_ifs <;> omega
    · omega
    · split_ifs <;> omega

theorem IsRoute.decisionAt_eq (isRoute : image.IsRoute slot route) {arm : Nat} (small : arm ≤ 1)
    (holds : route.Holds arm row) : route.decisionAt row = ⟨route.scope, arm⟩ := by
  refine congrArg (RouteArm.mk route.scope) ?_
  rcases Nat.le_one_iff_eq_zero_or_eq_one.mp small with rfl | rfl
  · exact if_pos holds
  · exact if_neg fun inFirst => isRoute.apart row inFirst holds

/-- A route around a stretch of rows names the arm that holds it. -/
theorem holds_of_conflict {start stop : Nat} {word : PackedEventConflict}
    (isOk : route.conflict start stop = .ok word) :
    ∃ arm ≤ 1, word.toConflict = some ⟨route.scope, arm⟩ ∧
      ∀ row, start ≤ row → row < stop → route.Holds arm row := by
  unfold RouteContext.conflict at isOk
  dsimp only at isOk
  split at isOk
  · rename_i inFirst
    exact ⟨0, Nat.zero_le 1, PackedEventConflict.toConflict_of_routeArm isOk, fun row low high =>
      ⟨Nat.le_trans inFirst.2.1 low, Nat.lt_of_lt_of_le high inFirst.2.2⟩⟩
  · split at isOk
    · rename_i inSecond
      exact ⟨1, Nat.le_refl 1, PackedEventConflict.toConflict_of_routeArm isOk, fun row low high =>
        ⟨Nat.le_trans inSecond.2.1 low, Nat.lt_of_lt_of_le high inSecond.2.2⟩⟩
    · cases isOk

/-! ### The open routes -/

/-- Routes around each other, from the innermost one: the decision around a route is the arm of
the next one that holds its rows. -/
def Nest (image : RoleImage) : List RouteContext → Prop
  | [] => True
  | route :: outer =>
    (∃ slot, image.routeContext slot = some route) ∧
    (match outer with
      | [] => route.parent.toConflict = none
      | around :: _ => ∃ arm ≤ 1, route.parent.toConflict = some ⟨around.scope, arm⟩ ∧
          ∀ row, route.start ≤ row → row < route.stop → around.Holds arm row) ∧
    Nest image outer

variable {outer opened : List RouteContext} {pending : List Nat} {current : Option RouteContext}

/-- At a row of the innermost route, the decisions of the open routes are a chain. -/
theorem Nest.climbs (nest : image.Nest opened)
    (inside : ∀ route ∈ opened.head?, route.start ≤ row ∧ row < route.stop) :
    Climbs RouteArm.scope image.parentOf (opened.map (·.decisionAt row)) ∧
      ∀ route ∈ opened, route.start ≤ row ∧ row < route.stop := by
  induction opened with
  | nil => exact ⟨trivial, nofun⟩
  | cons route outer hyp =>
    obtain ⟨⟨slot, isContext⟩, isAround, nestOuter⟩ := nest
    have isParent := (isRoute isContext).parent
    have isInside := inside route rfl
    cases outer with
    | nil => exact ⟨⟨isParent.trans isAround, trivial⟩, forall_mem_singleton.mpr isInside⟩
    | cons next rest =>
      obtain ⟨arm, small, isArm, holds⟩ := isAround
      obtain ⟨_, isNext⟩ := nestOuter.1
      have nextHolds := holds row isInside.1 isInside.2
      have nextInside := ((isRoute isNext).holds row).mpr (by
        rcases Nat.le_one_iff_eq_zero_or_eq_one.mp small with rfl | rfl
        · exact .inl nextHolds
        · exact .inr nextHolds)
      obtain ⟨climbs, allInside⟩ := hyp nestOuter fun other isOther =>
        Option.some.inj isOther ▸ nextInside
      refine ⟨⟨?_, climbs⟩, forall_mem_cons.mpr ⟨isInside, allInside⟩⟩
      rw [map_cons, head?_cons, (isRoute isNext).decisionAt_eq small nextHolds]
      exact isParent.trans isArm

/-- Leaving drops open routes that have ended, up to one that has not. -/
theorem Nest.leave (nest : image.Nest opened) {fuel : Nat} {left : Option RouteContext}
    (isOk : image.leave row fuel opened.head? = .ok left) :
    ∃ ended kept, opened = ended ++ kept ∧ left = kept.head? ∧ image.Nest kept ∧
      (∀ route ∈ ended, route.stop ≤ row) ∧ ∀ route ∈ kept.head?, row < route.stop := by
  induction opened generalizing fuel with
  | nil =>
    cases fuel with
    | zero => cases isOk
    | succ fuel => exact ⟨[], [], rfl, (Except.ok.inj isOk).symm, trivial, nofun, nofun⟩
  | cons route outer hyp =>
    cases fuel with
    | zero => cases isOk
    | succ fuel =>
      rw [head?_cons, RoleRows.leave] at isOk
      split at isOk
      · rename_i isOpen
        refine ⟨[], route :: outer, rfl, (Except.ok.inj isOk).symm, nest, nofun, ?_⟩
        exact fun other isOther => Option.some.inj isOther ▸ isOpen
      · rename_i isEnded
        obtain ⟨_, isAround, nestOuter⟩ := nest
        have isLeft : ∃ fuel, image.leave row fuel outer.head? = .ok left := by
          cases outer with
          | nil =>
            rw [show route.parent.toConflict = none from isAround] at isOk
            exact ⟨1, isOk⟩
          | cons next rest =>
            obtain ⟨arm, _, isArm, _⟩ := isAround
            obtain ⟨slot, isNext⟩ := nestOuter.1
            rw [isArm] at isOk
            dsimp only at isOk
            rw [(isRoute isNext).isSlot, Option.bind_some, isNext] at isOk
            exact ⟨fuel, isOk⟩
        obtain ⟨fuel, isLeft⟩ := isLeft
        obtain ⟨ended, kept, rfl, isHead, nestKept, isDone, isKept⟩ := hyp nestOuter isLeft
        exact ⟨route :: ended, kept, rfl, isHead, nestKept,
          forall_mem_cons.mpr ⟨Nat.not_lt.mp isEnded, isDone⟩, isKept⟩

/-- Entering opens the routes that start at the row. -/
theorem Nest.enter (nest : image.Nest opened) {later : List Nat}
    (isOk : image.enter row opened.head? pending = .ok (current, later)) :
    ∃ entered, current = (entered ++ opened).head? ∧ image.Nest (entered ++ opened) ∧
      (∀ route ∈ entered, route.start = row ∧ row < route.stop) ∧
      ∀ slot ∈ pending, slot ∉ later → ∀ route, image.routeContext slot = some route →
        route ∈ entered := by
  induction pending generalizing opened with
  | nil =>
    obtain ⟨rfl, rfl⟩ := Prod.mk.inj (Except.ok.inj isOk)
    exact ⟨[], rfl, nest, nofun, nofun⟩
  | cons slot rest hyp =>
    rw [RoleRows.enter] at isOk
    split at isOk
    · rename_i isNone
      obtain ⟨entered, isHead, nestAll, starts, all⟩ := hyp nest isOk
      refine ⟨entered, isHead, nestAll, starts,
        forall_mem_cons.mpr ⟨fun _ route isRoute => ?_, all⟩⟩
      cases isNone.symm.trans isRoute
    · rename_i route isFound
      split at isOk
      · obtain ⟨rfl, rfl⟩ := Prod.mk.inj (Except.ok.inj isOk)
        exact ⟨[], rfl, nest, nofun, fun other mem absent => absurd mem absent⟩
      · rename_i notLater
        split at isOk
        · cases isOk
        · rename_i notEarlier
          have isStart : route.start = row := by omega
          obtain ⟨expected, isExpected, isOk⟩ := Run.of_bind isOk
          split at isOk
          · cases isOk
          · rename_i same
            have isParent : route.parent.toConflict = expected.toConflict := by
              rw [← route.parent.toConflict_singlePass, not_not.mp same,
                expected.toConflict_singlePass]
            have nestRoute : image.Nest (route :: opened) := by
              refine ⟨⟨slot, isFound⟩, ?_, nest⟩
              cases opened with
              | nil =>
                obtain rfl := Except.ok.inj isExpected
                exact isParent
              | cons around above =>
                obtain ⟨arm, small, isArm, holds⟩ := holds_of_conflict isExpected
                exact ⟨arm, small, isParent.trans isArm, holds⟩
            obtain ⟨entered, isHead, nestAll, starts, all⟩ := hyp nestRoute isOk
            rw [← singleton_append, ← append_assoc] at isHead nestAll
            refine ⟨entered ++ [route], isHead, nestAll, ?_, ?_⟩
            · refine forall_mem_append.mpr ⟨starts, forall_mem_singleton.mpr ⟨isStart, ?_⟩⟩
              exact isStart ▸ (isRoute isFound).filled
            · refine forall_mem_cons.mpr ⟨fun _ other isOther => ?_, fun other inRest absent
                found isContext => mem_append_left _ (all other inRest absent found isContext)⟩
              rw [Option.some.inj (isOther.symm.trans isFound)]
              exact mem_append_right _ mem_cons_self

variable {step : LocalStep} {rest steps : List LocalStep}

/-- One row of the walk: routes end, routes start, and the row has the decision of the innermost
one that is then open. -/
theorem Nest.walk_cons (nest : image.Nest opened)
    (isOk : image.walk row opened.head? pending (step :: rest) = .ok true) :
    ∃ now later, image.Nest now ∧ image.walk (row + 1) now.head? later rest = .ok true ∧
      (∀ route ∈ now.head?, row < route.stop) ∧
      (∀ route ∈ now, route ∈ opened ∨ route.start = row) ∧
      (∀ route ∈ opened, row < route.stop → route ∈ now) ∧
      (∀ slot ∈ pending, slot ∉ later → ∀ route, image.routeContext slot = some route →
        route ∈ now ∧ route.start = row) ∧
      step.conflict.toConflict = now.head?.map (·.decisionAt row) := by
  obtain ⟨around, isLeft, isOk⟩ := Run.of_bind isOk
  obtain ⟨ended, kept, rfl, rfl, nestKept, isEnded, isKept⟩ := nest.leave isLeft
  obtain ⟨⟨inner, later⟩, isEntered, isOk⟩ := Run.of_bind isOk
  obtain ⟨entered, rfl, nestAll, starts, all⟩ := nestKept.enter isEntered
  obtain ⟨expected, isExpected, isOk⟩ := Run.of_bind isOk
  split at isOk
  · cases isOk
  · rename_i same
    refine ⟨entered ++ kept, later, nestAll, isOk, ?_, ?_, ?_, ?_, ?_⟩
    · intro route isFirst
      cases entered with
      | nil => exact isKept route isFirst
      | cons next _ => exact (starts route (mem_of_mem_head? isFirst)).2
    · intro route mem
      rcases mem_append.mp mem with inEntered | inKept
      · exact .inr (starts route inEntered).1
      · exact .inl (mem_append_right _ inKept)
    · intro route mem isOpen
      rcases mem_append.mp mem with isOld | inKept
      · exact absurd (isEnded route isOld) (Nat.not_le.mpr isOpen)
      · exact mem_append_right _ inKept
    · intro slot mem absent route isContext
      have inEntered := all slot mem absent route isContext
      exact ⟨mem_append_left _ inEntered, (starts route inEntered).1⟩
    · rw [← step.conflict.toConflict_singlePass, not_not.mp same, expected.toConflict_singlePass]
      cases isFirst : (entered ++ kept).head? with
      | none =>
        rw [isFirst] at isExpected
        rw [← Except.ok.inj isExpected]
        rfl
      | some route =>
        rw [isFirst] at isExpected
        obtain ⟨arm, small, isArm, holds⟩ := holds_of_conflict isExpected
        obtain ⟨above, isAll⟩ := head?_eq_some_iff.mp isFirst
        rw [isAll] at nestAll
        obtain ⟨slot, isContext⟩ := nestAll.1
        rw [isArm, Option.map_some, (isRoute isContext).decisionAt_eq small
          (holds row le_rfl (Nat.lt_succ_self _))]

/-- Every route that is left for later rows starts there. -/
theorem Nest.le_start (nest : image.Nest opened)
    (isOk : image.walk row opened.head? pending steps = .ok true) (mem : slot ∈ pending)
    (isContext : image.routeContext slot = some route) : row ≤ route.start := by
  induction steps generalizing row pending opened with
  | nil =>
    have isNone := all_eq_true.mp (Except.ok.inj isOk) slot mem
    rw [isContext] at isNone
    cases isNone
  | cons step rest hyp =>
    obtain ⟨now, later, nestNow, isRest, _, _, _, entered, _⟩ := nest.walk_cons isOk
    by_cases isLater : slot ∈ later
    · exact Nat.le_of_succ_le (hyp nestNow isRest isLater)
    · exact Nat.le_of_eq (entered slot mem isLater route isContext).2.symm

/-- The open routes at a row are those that hold it, and the row has the decision of the innermost
one. -/
structure OpenAt (image : RoleImage) (row : Nat) (step : LocalStep) (opened : List RouteContext) :
    Prop where
  nest : image.Nest opened
  inside : ∀ route ∈ opened.head?, route.start ≤ row ∧ row < route.stop
  all : ∀ slot route, image.routeContext slot = some route → route.start ≤ row →
    row < route.stop → route ∈ opened
  decides : step.conflict.toConflict = opened.head?.map (·.decisionAt row)

theorem Nest.openAt (nest : image.Nest opened)
    (isOk : image.walk row opened.head? pending steps = .ok true)
    (began : ∀ route ∈ opened, route.start ≤ row)
    (all : ∀ slot route, image.routeContext slot = some route → slot ∉ pending →
      row < route.stop → route ∈ opened)
    {offset : Nat} (isStep : steps[offset]? = some step) :
    ∃ now, image.OpenAt (row + offset) step now := by
  induction steps generalizing row pending opened offset with
  | nil => cases isStep
  | cons first rest hyp =>
    obtain ⟨now, later, nestNow, isRest, isOpen, isNow, stays, entered, decides⟩ :=
      nest.walk_cons isOk
    have nowBegan : ∀ route ∈ now, route.start ≤ row := by
      intro route mem
      rcases isNow route mem with wasOpen | isStart
      · exact began route wasOpen
      · exact Nat.le_of_eq isStart
    have nowAll : ∀ slot route, image.routeContext slot = some route → slot ∉ later →
        row < route.stop → route ∈ now := by
      intro slot route isContext absent high
      by_cases wasPending : slot ∈ pending
      · exact (entered slot wasPending absent route isContext).1
      · exact stays route (all slot route isContext wasPending high) high
    cases offset with
    | zero =>
      obtain rfl := Option.some.inj isStep
      refine ⟨now, nestNow, fun route isFirst => ⟨nowBegan route (mem_of_mem_head? isFirst),
        isOpen route isFirst⟩, fun slot route isContext low high => ?_, decides⟩
      refine nowAll slot route isContext (fun isLater => ?_) high
      exact Nat.not_lt.mpr low (nestNow.le_start isRest isLater isContext)
    | succ offset =>
      rw [Nat.add_succ, ← Nat.succ_add]
      exact hyp nestNow isRest (fun route mem => Nat.le_succ_of_le (nowBegan route mem))
        (fun slot route isContext absent high =>
          nowAll slot route isContext absent (Nat.lt_of_succ_lt high)) isStep

theorem openAt (isStep : image.steps[row]? = some step) :
    ∃ opened, image.OpenAt row step opened := by
  have nest : image.Nest [] := trivial
  have isOpen := nest.openAt image.walk_eq.2 nofun (fun slot route isContext absent _ => by
    obtain ⟨_, isScope, _⟩ := image.columns.routeScopes_of_slot (isRoute isContext).isSlot
    exact absurd (mem_range.mpr (List.getElem?_eq_some_iff.mp isScope).1) absent) isStep
  rwa [Nat.zero_add] at isOpen

/-- The row is one of the rows of a decision's arm. -/
def InArm (image : RoleRows) (decision : RouteArm) (row : Nat) : Prop :=
  decision.arm ≤ 1 ∧ ∃ slot range, image.routeScopeSlot decision.scope = some slot ∧
    image.routeArms[slot * 2 + decision.arm]? = some range ∧
    range.start.toNat ≤ row ∧ row < range.stop

theorem Nest.isContext (nest : image.Nest opened) (mem : route ∈ opened) :
    ∃ slot, image.routeContext slot = some route := by
  induction opened with
  | nil => cases mem
  | cons first rest hyp =>
    rcases mem_cons.mp mem with rfl | inRest
    · exact nest.1
    · exact hyp nest.2.2 inRest

/-- A slot is that of one route. -/
theorem scope_of_slot (isSlot : image.routeScopeSlot scope = some slot) :
    ∃ ordinal, image.routeScopes[slot]? = some ordinal ∧ scope = ⟨.route, ordinal⟩ := by
  obtain ⟨isKind, isScope, _⟩ := image.columns.routeScopes_of_slot isSlot
  exact ⟨scope.ordinal, isScope, by rw [← isKind]⟩

/-- An arm with rows is that of a route with rows. -/
theorem InArm.holds {decision : RouteArm} (inArm : InArm image.toRoleRows decision row) :
    ∃ slot route, image.routeContext slot = some route ∧ route.scope = decision.scope ∧
      route.Holds decision.arm row := by
  obtain ⟨small, slot, range, isSlot, isRange, low, high⟩ := inArm
  obtain ⟨ordinal, isScope, isDecision⟩ := scope_of_slot isSlot
  have coherent := image.coherent
  simp only [RoleRows.armsAreCoherent, Bool.and_eq_true, decide_eq_true_eq] at coherent
  obtain ⟨⟨⟨⟨armCount, conflictCount⟩, _⟩, _⟩, _⟩ := coherent
  have inside : slot < image.routeScopes.length := (List.getElem?_eq_some_iff.mp isScope).1
  have isFirst := getElem?_eq_getElem (show slot * 2 < image.routeArms.length by omega)
  have isSecond := getElem?_eq_getElem (show slot * 2 + 1 < image.routeArms.length by omega)
  have isParent := getElem?_eq_getElem (conflictCount ▸ inside)
  cases isContext : image.routeContext slot with
  | some route =>
    have isRoute := isRoute isContext
    obtain ⟨other, isOther, isRouteScope⟩ := scope_of_slot isRoute.isSlot
    obtain rfl := Option.some.inj (isScope.symm.trans isOther)
    refine ⟨slot, route, isContext, isRouteScope.trans isDecision.symm, ?_⟩
    rw [RouteContext.Holds, Option.some.inj ((isRoute.arms _ small).symm.trans isRange)]
    exact ⟨low, high⟩
  | none =>
    unfold RoleRows.routeContext at isContext
    rw [isScope, isFirst, isSecond, isParent] at isContext
    -- The route would have no rows at all.
    have isEmpty : range.len = 0 := by
      simp only [Option.bind_eq_bind, Option.bind_some, ite_eq_left_iff, reduceCtorEq, imp_false,
        not_not] at isContext
      rcases Nat.le_one_iff_eq_zero_or_eq_one.mp small with isArm | isArm <;> rw [isArm] at isRange
      · rw [← Option.some.inj (isFirst.symm.trans isRange)]
        exact isContext.1
      · rw [← Option.some.inj (isSecond.symm.trans isRange)]
        exact isContext.2
    rw [PackedLaneRange.stop, isEmpty] at high
    exact absurd high (Nat.not_lt.mpr low)

/-- The decisions of the open routes are the arms that hold the row. -/
theorem OpenAt.mem_iff (isOpen : image.OpenAt row step opened) (decision : RouteArm) :
    decision ∈ opened.map (·.decisionAt row) ↔ InArm image.toRoleRows decision row := by
  rw [mem_map]
  constructor
  · rintro ⟨route, mem, rfl⟩
    obtain ⟨slot, isContext⟩ := isOpen.nest.isContext mem
    have isRoute := isRoute isContext
    obtain ⟨arm, small, holds⟩ : ∃ arm ≤ 1, route.Holds arm row := by
      rcases (isRoute.holds row).mp ((isOpen.nest.climbs isOpen.inside).2 route mem) with
        inFirst | inSecond
      · exact ⟨0, Nat.zero_le 1, inFirst⟩
      · exact ⟨1, Nat.le_refl 1, inSecond⟩
    rw [isRoute.decisionAt_eq small holds]
    exact ⟨small, slot, _, isRoute.isSlot, isRoute.arms arm small, holds⟩
  · intro inArm
    obtain ⟨slot, route, isContext, isScope, holds⟩ := inArm.holds
    have isRoute := isRoute isContext
    have inside := (isRoute.holds row).mpr (by
      rcases Nat.le_one_iff_eq_zero_or_eq_one.mp inArm.1 with isArm | isArm <;> rw [isArm] at holds
      · exact .inl holds
      · exact .inr holds)
    refine ⟨route, isOpen.all slot route isContext inside.1 inside.2, ?_⟩
    rw [isRoute.decisionAt_eq inArm.1 holds, isScope]

end RoleImage

end Hibana
