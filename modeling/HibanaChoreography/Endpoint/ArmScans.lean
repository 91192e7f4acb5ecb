/-
This file models the scans of an endpoint's cursor that jump over unselected arms, in
`typestate/cursor/scope_route` and `typestate/cursor/lane_progress.rs`.

A scan looks for a pending row that a selection of route arms does not exclude. When a row
is excluded by an arm, the scan goes on behind the rows of that arm. All rows of the arm
are excluded, so the scans answer as if they tested every pending row of their range. The
last scan reads an index that an image without routes does not have, and then finds no row.
-/

import HibanaChoreography.Endpoint.RowAdmission
import HibanaChoreography.Library.Scanning
import HibanaChoreography.Library.Search
import Mathlib.Data.BitVec

namespace Hibana

open Outcome Scanning List

/-- What the rows of an actor ask the program image: the holder of an operation under a selection,
the order of the source, the arm of a route that holds another route, and the rolls around a row
with their slots. The scans pass these answers on. -/
structure ProgramReads where
  role : UInt8
  actorDecisionCount : Nat
  selectedActor : Nat → Bool → SelectedArms → Option UInt8
  sourcePrecedes : Nat → Nat → Bool
  sourceRouteAncestorArm : ScopeId → ScopeId → Option Nat
  rollScopeCount : Nat
  rollAncestors : Nat → List (Nat × PackedLaneRange)

/-- The bits of the completion words are for the rows and, behind them, for the rolls that keep a
completed visit. -/
structure EventCursor where
  image : RoleImage
  program : ProgramReads
  completedEventWords : List (BitVec 32)

inductive EventAdmissionError where
  | invariant
  | predecessorPending
  | payloadPredecessorPending
  | otherViewPending
  deriving DecidableEq, Repr

/-- An operation borrows its own view, and a send of an endpoint also consumes that view. -/
def LocalStep.usesView (step : LocalStep) (role : UInt8) : Bool :=
  step.logicalRole = role ∨ (step.direction = .send ∧ step.atom.payload = .endpoint role)

namespace EventCursor

variable (cursor : EventCursor)

def localStepsLen : Nat := cursor.image.steps.length

def completionBit (index : Nat) : Bool :=
  (cursor.completedEventWords[index / 32]?.getD (BitVec.ofNat 32 0)).getLsbD (index % 32)

def isPending (row : Nat) : Bool := !cursor.completionBit row

def isRecvAt (row : Nat) : Bool :=
  cursor.image.steps[row]?.any fun step => step.direction = .recv

/-- Whether this actor holds the operation, once the selection decides it. -/
def eventActorIsLocal (row : Nat) (selected : SelectedArms) : Option Bool :=
  match cursor.image.steps[row]? with
  | none => some false
  | some step =>
    if cursor.program.actorDecisionCount = 0 then some true
    else (cursor.program.selectedActor step.effect (step.direction = .recv) selected).map
      (· = cursor.program.role)

def hasRetainedRollCompletion : Bool :=
  (List.range cursor.program.rollScopeCount).any fun slot =>
    cursor.completionBit (cursor.localStepsLen + slot)

/-- The end of the outermost completed roll around a row that does not hold the target. -/
def retainedRollPredecessorEnd (predecessor target : Nat) : Option Nat :=
  if cursor.program.rollScopeCount = 0 ∨ cursor.isRecvAt target = false then none
  else (cursor.program.rollAncestors predecessor).foldl (fun found (slot, range) =>
    if ¬ (range.start.toNat ≤ target ∧ target < range.stop) ∧
        cursor.completionBit (cursor.localStepsLen + slot) then
      some (max (found.getD range.stop) range.stop)
    else found) none

/-- The arm of a route in the path of a candidate. -/
def previewConflictArm (preview : PackedEventConflict) (target : ScopeId) : Option Nat :=
  match preview.toConflict with
  | none => none
  | some decision =>
    if decision.scope = target then some decision.arm
    else if (cursor.image.routeScopeSlot decision.scope).isNone ∨
        (cursor.image.routeScopeSlot target).isNone then none
    else cursor.program.sourceRouteAncestorArm decision.scope target

/-- A selection, and the path of a candidate where it is open. -/
def withPreview (preview : PackedEventConflict) (selected : SelectedArms) : SelectedArms :=
  fun scope => (selected scope).or (cursor.previewConflictArm preview scope)

def eventConflictRowAdmissionWithPreview (conflict preview : PackedEventConflict)
    (selected : SelectedArms) : Run ConflictAdmission :=
  cursor.image.admission conflict (cursor.withPreview preview selected)

/-- Take the pending rows of a range, with what to do at each one. -/
def scanRows {State Answer : Type} (start stop : Nat)
    (visit : State → Nat → Run (Visit State Answer)) (finish : State → Answer) (state : State) :
    Run Answer :=
  if stop < start ∨ cursor.localStepsLen < stop then .error .invariant
  else scan cursor.isPending stop visit finish (stop - start)
    (pendingIn cursor.isPending start stop) state

/-- A retained visit is skipped for a receive. -/
def skipRetained {State Answer : Type} (row target : Nat) (visit : Run (Visit State Answer)) :
    Run (Visit State Answer) :=
  match if cursor.isRecvAt target && cursor.hasRetainedRollCompletion then
      cursor.retainedRollPredecessorEnd row target else none with
  | some stop => .ok (.jump stop)
  | none => visit

/-- What a scan does at a row that is allowed, and at one that is excluded. -/
def visitAdmitted {State Answer : Type} (row : Nat) (admission : Run ConflictAdmission)
    (allowed invalid : Visit State Answer) : Run (Visit State Answer) := do
  match ← admission with
  | .allowed => return allowed
  | .excluded decision => return .jump (← cursor.image.excludedArmEnd row decision)
  | .invalid => return invalid

def visitLive (selected : SelectedArms) (row : Nat) : Run (Visit Unit Bool) :=
  let pending : Visit Unit Bool :=
    if cursor.eventActorIsLocal row selected ≠ some false then .answer false else .next ()
  cursor.visitAdmitted row (cursor.image.eventConflictRowAdmission
    (cursor.image.eventConflictForIndex row) none none selected) pending pending

def dependencyRowLiveEventsDone (target start stop : Nat) (selected : SelectedArms) : Run Bool :=
  cursor.scanRows start stop (fun _ row => cursor.skipRetained row target
    (cursor.visitLive selected row)) (fun _ => true) ()

def eventRowSetLiveEventsDone (start stop : Nat) (selected : SelectedArms) : Run Bool :=
  cursor.scanRows start stop (fun _ row => cursor.visitLive selected row) (fun _ => true) ()

/-- No earlier row of the lane, and of a view, is open before the target. -/
def eventLaneHeadAllowsView (target : Nat) (lane : UInt8) (preview : PackedEventConflict)
    (role : Option UInt8) (selected : SelectedArms) : Run Bool :=
  cursor.scanRows 0 target (fun _ row =>
    match cursor.image.steps[row]? with
    | none => .ok (.next ())
    | some step =>
      if step.atom.lane = lane ∧ role.all step.usesView then
        cursor.skipRetained row target
          (if cursor.eventActorIsLocal row selected = some false then .ok (.next ())
          else cursor.visitAdmitted row
            (cursor.eventConflictRowAdmissionWithPreview step.conflict preview selected)
            (.answer false) (.next ()))
      else .ok (.next ())) (fun _ => true) ()

/-- The operation comes before another one in the source. -/
def precedes (before after : LocalStep) : Bool :=
  if before.effect = after.effect then before.direction = .send ∧ after.direction = .recv
  else cursor.program.sourcePrecedes before.effect after.effect

/-- What an operation that is blocked by a predecessor has to wait for. -/
def sourcePredecessorWait (index : Nat) (view : UInt8) (moved : Option UInt8)
    (conflict : PackedEventConflict) (selected : SelectedArms) : Run EventAdmissionError :=
  match cursor.image.steps[index]? with
  | none => .error .invariant
  | some after =>
    cursor.scanRows 0 index (fun wait row =>
      match cursor.image.steps[row]? with
      | none => .error .invariant
      | some before =>
        if (before.usesView view || moved.any before.usesView) ∧ cursor.precedes before after ∧
            cursor.eventActorIsLocal row selected ≠ some false then
          cursor.visitAdmitted row
            (cursor.eventConflictRowAdmissionWithPreview before.conflict conflict selected)
            (if before.usesView view then .answer .predecessorPending
              else .next .payloadPredecessorPending) (.next wait)
        else .ok (.next wait)) id .otherViewPending

/-- The first row of a view and lane that is pending and may be this actor's. -/
def potentialOfferLaneStep (view lane : UInt8) (selected : SelectedArms) :
    Nat → Nat → Run (Option Nat)
  | 0, _ => .error .fuel
  | fuel + 1, start => do
    match ← cursor.image.viewLaneStepAtOrAfter view lane start with
    | none => return none
    | some row =>
      if cursor.completionBit row then potentialOfferLaneStep view lane selected fuel (row + 1)
      else
        match ← cursor.image.eventConflictRowAdmission (cursor.image.eventConflictForIndex row) none
          none selected with
        | .excluded decision =>
          let range ← cursor.image.routeArmEventRow decision
          potentialOfferLaneStep view lane selected fuel range.stop
        | .invalid => .error .invariant
        | .allowed =>
          if cursor.eventActorIsLocal row selected ≠ some false then return some row
          else potentialOfferLaneStep view lane selected fuel (row + 1)

/-! ### Rows one by one -/

/-- The selection does not exclude the row, and does not give it to another actor. -/
def isLive (selected holders : SelectedArms) (row : Nat) : Bool :=
  !cursor.image.isExcluded selected row && cursor.eventActorIsLocal row holders ≠ some false

variable {cursor} {row : Nat} {selected : SelectedArms} {step : LocalStep} {State Answer : Type}

theorem rowAdmission_eq (isStep : cursor.image.steps[row]? = some step) (selected : SelectedArms) :
    cursor.image.eventConflictRowAdmission (cursor.image.eventConflictForIndex row) none none
      selected = cursor.image.admission step.conflict selected := by
  have isSelected : (fun scope => (selected scope).or
      (if none = some scope then none else none)) = selected := by
    funext scope
    rw [ite_self, Option.or_none]
  rw [RoleRows.eventConflictRowAdmission, isSelected, RoleRows.eventConflictForIndex, isStep]
  rfl

/-- A visit does what is for an allowed row, or it jumps forward over excluded rows. -/
theorem visitAdmitted_eq (isStep : cursor.image.steps[row]? = some step) (selected : SelectedArms)
    (allowed invalid : Visit State Answer) :
    ∃ visited, cursor.visitAdmitted row (cursor.image.admission step.conflict selected) allowed
        invalid = .ok visited ∧
      (cursor.image.isExcluded selected row = false ∧ visited = allowed ∨
        ∃ target, visited = .jump target ∧ row < target ∧
          ∀ other, row ≤ other → other < target →
            cursor.image.isExcluded selected other = true) := by
  rcases cursor.image.admission_spec isStep selected with ⟨isAllowed, isOpen⟩ |
    ⟨decision, range, isExcluded, _, isEnd, isLater, all⟩
  · rw [visitAdmitted, isAllowed, Run.bind_ok]
    exact ⟨allowed, rfl, .inl ⟨isOpen, rfl⟩⟩
  · rw [visitAdmitted, isExcluded, Run.bind_ok]
    dsimp only
    rw [isEnd, Run.bind_ok]
    exact ⟨_, rfl, .inr ⟨range.stop, rfl, isLater, all⟩⟩

theorem skipRetained_eq (noCredits : cursor.hasRetainedRollCompletion = false) (target : Nat)
    (visit : Run (Visit State Answer)) : cursor.skipRetained row target visit = visit := by
  rw [skipRetained, noCredits, Bool.and_false, if_neg Bool.false_ne_true]

variable {start stop : Nat}

theorem scanRows_eq {visit : State → Nat → Run (Visit State Answer)}
    {test : State → Nat → Except Answer State} {finish : State → Answer} (ordered : start ≤ stop)
    (inside : stop ≤ cursor.localStepsLen)
    (agrees : ∀ state row step, cursor.image.steps[row]? = some step →
      ∃ visited, visit state row = .ok visited ∧ Agrees test stop state row visited)
    (state : State) :
    cursor.scanRows start stop visit finish state =
      .ok (each test finish (pendingIn cursor.isPending start stop) state) := by
  rw [scanRows, if_neg (by omega)]
  refine scan_eq_each (fun state row high _ => ?_) le_rfl state
  exact agrees state row _ (getElem?_eq_getElem (Nat.lt_of_lt_of_le high inside))

theorem visitLive_agrees (isStep : cursor.image.steps[row]? = some step) (selected : SelectedArms)
    (stop : Nat) :
    ∃ visited, cursor.visitLive selected row = .ok visited ∧
      Agrees (fun _ row => if cursor.isLive selected selected row then .error false else .ok ())
        stop () row visited := by
  rw [visitLive, rowAdmission_eq isStep]
  obtain ⟨visited, isVisit, ⟨isOpen, rfl⟩ | ⟨target, rfl, isLater, all⟩⟩ :=
    visitAdmitted_eq isStep selected (if cursor.eventActorIsLocal row selected ≠ some false then
      Visit.answer false else Visit.next ()) _
  · refine ⟨_, isVisit, ?_⟩
    by_cases isLocal : cursor.eventActorIsLocal row selected = some false <;>
      simp [Agrees, isLive, isLocal, isOpen]
  · refine ⟨_, isVisit, isLater, fun other low high _ _ => ?_⟩
    simp [isLive, all other low high]

/-- The rows of a range are done when no pending row is live. -/
theorem eventRowSetLiveEventsDone_eq (ordered : start ≤ stop) (inside : stop ≤ cursor.localStepsLen)
    (selected : SelectedArms) :
    cursor.eventRowSetLiveEventsDone start stop selected =
      .ok ((pendingIn cursor.isPending start stop).all fun row =>
        !cursor.isLive selected selected row) := by
  rw [eventRowSetLiveEventsDone, scanRows_eq ordered inside fun _ row step isStep =>
    visitLive_agrees isStep selected stop, each_eq_all]

theorem dependencyRowLiveEventsDone_eq (noCredits : cursor.hasRetainedRollCompletion = false)
    (target : Nat) (ordered : start ≤ stop) (inside : stop ≤ cursor.localStepsLen)
    (selected : SelectedArms) :
    cursor.dependencyRowLiveEventsDone target start stop selected =
      .ok ((pendingIn cursor.isPending start stop).all fun row =>
        !cursor.isLive selected selected row) := by
  rw [← eventRowSetLiveEventsDone_eq ordered inside, dependencyRowLiveEventsDone,
    eventRowSetLiveEventsDone]
  simp only [skipRetained_eq noCredits]

/-- The lane's rows in front of the target that block it. -/
def isAhead (cursor : EventCursor) (lane : UInt8) (preview : PackedEventConflict)
    (role : Option UInt8) (selected : SelectedArms) (row : Nat) : Bool :=
  (cursor.image.steps[row]?.any fun step => step.atom.lane = lane ∧ role.all step.usesView) &&
    cursor.isLive (cursor.withPreview preview selected) selected row

theorem eventLaneHeadAllowsView_eq (noCredits : cursor.hasRetainedRollCompletion = false)
    {target : Nat} (inside : target ≤ cursor.localStepsLen) (lane : UInt8)
    (preview : PackedEventConflict) (role : Option UInt8) (selected : SelectedArms) :
    cursor.eventLaneHeadAllowsView target lane preview role selected =
      .ok ((pendingIn cursor.isPending 0 target).all fun row =>
        !cursor.isAhead lane preview role selected row) := by
  rw [eventLaneHeadAllowsView, ← each_eq_all]
  refine scanRows_eq (Nat.zero_le _) inside (fun _ row step isStep => ?_) ()
  simp only [isStep, skipRetained_eq noCredits]
  split
  · rename_i isOfLane
    split
    · rename_i isOther
      exact ⟨_, rfl, by simp [Agrees, isAhead, isLive, isOther]⟩
    · rename_i isLocal
      obtain ⟨visited, isVisit, ⟨isOpen, rfl⟩ | ⟨next, rfl, isLater, all⟩⟩ :=
        visitAdmitted_eq isStep
        (cursor.withPreview preview selected) (Visit.answer false : Visit Unit Bool) (.next ())
      · exact ⟨_, isVisit, by simp [Agrees, isAhead, isLive, isStep, isOfLane, isLocal, isOpen]⟩
      · refine ⟨_, isVisit, isLater, fun other low high _ _ => ?_⟩
        simp [isAhead, isLive, all other low high]
  · rename_i notOfLane
    exact ⟨_, rfl, by simp [Agrees, isAhead, isStep, notOfLane]⟩

/-- The operations in front of another one that it has to wait for. -/
def isPrerequisite (cursor : EventCursor) (after : LocalStep) (view : UInt8) (moved : Option UInt8)
    (conflict : PackedEventConflict) (selected : SelectedArms) (row : Nat) : Bool :=
  (cursor.image.steps[row]?.any fun before =>
    (before.usesView view || moved.any before.usesView) && cursor.precedes before after) &&
    cursor.isLive (cursor.withPreview conflict selected) selected row

def usesViewAt (cursor : EventCursor) (row : Nat) (view : UInt8) : Bool :=
  cursor.image.steps[row]?.any (·.usesView view)

theorem each_eq_wait (needs own : Nat → Bool) (rows : List Nat) (wait : EventAdmissionError) :
    each (fun wait row => if needs row then
        if own row then .error .predecessorPending else .ok .payloadPredecessorPending
      else .ok wait) id rows wait =
      if rows.any fun row => needs row && own row then .predecessorPending
      else if rows.any needs then .payloadPredecessorPending else wait := by
  induction rows generalizing wait with
  | nil => rfl
  | cons row rows hyp =>
    rw [each, foldlM_cons, any_cons, any_cons]
    cases needs row with
    | false => exact hyp wait
    | true =>
      cases own row with
      | true => rfl
      | false =>
        refine (hyp .payloadPredecessorPending).trans ?_
        rw [ite_self]
        rfl

theorem sourcePredecessorWait_eq {index : Nat} {after : LocalStep}
    (isAfter : cursor.image.steps[index]? = some after) (view : UInt8) (moved : Option UInt8)
    (conflict : PackedEventConflict) (selected : SelectedArms) :
    cursor.sourcePredecessorWait index view moved conflict selected =
      let rows := pendingIn cursor.isPending 0 index
      let needs := cursor.isPrerequisite after view moved conflict selected
      .ok (if rows.any fun row => needs row && cursor.usesViewAt row view then .predecessorPending
        else if rows.any needs then .payloadPredecessorPending else .otherViewPending) := by
  dsimp only
  rw [← each_eq_wait, sourcePredecessorWait, isAfter]
  have inside := (List.getElem?_eq_some_iff.mp isAfter).1
  refine scanRows_eq (Nat.zero_le _) (Nat.le_of_lt inside) (fun wait row step isStep => ?_) _
  simp only [isStep]
  split
  · rename_i isNear
    obtain ⟨visited, isVisit, ⟨isOpen, rfl⟩ | ⟨next, rfl, isLater, all⟩⟩ := visitAdmitted_eq isStep
      (cursor.withPreview conflict selected) (if step.usesView view then
        Visit.answer EventAdmissionError.predecessorPending
        else Visit.next EventAdmissionError.payloadPredecessorPending) (.next wait)
    · refine ⟨_, isVisit, ?_⟩
      cases isOwn : step.usesView view <;> simp_all [Agrees, isPrerequisite, usesViewAt, isLive]
    · refine ⟨_, isVisit, isLater, fun other low high _ _ => ?_⟩
      simp [isPrerequisite, isLive, all other low high]
  · rename_i notNear
    refine ⟨_, rfl, if_neg ?_⟩
    intro isNear
    simp only [isPrerequisite, isStep, Option.any_some, isLive, Bool.and_eq_true] at isNear
    exact notNear ⟨isNear.1.1, isNear.1.2, of_decide_eq_true isNear.2.2⟩

end EventCursor

/-! ### The index of views and lanes -/

namespace RoleImage

variable {image : RoleImage} {view lane : UInt8} {start row : Nat}

/-- What the index of an image with routes is: every row once, in the order of the keys. -/
theorem viewLaneIndex_spec (hasRoutes : image.routeScopes.isEmpty = false) :
    ∃ rowAt : Nat → Nat,
      (∀ slot < image.steps.length, image.viewLaneStepAt slot = .ok (rowAt slot) ∧
        rowAt slot < image.steps.length) ∧
      (∀ row < image.steps.length, ∃ slot < image.steps.length, rowAt slot = row) ∧
      ∀ first second, first ≤ second → second < image.steps.length →
        image.viewLaneStepKey (rowAt first) ≤ image.viewLaneStepKey (rowAt second) := by
  have ordered := image.ordered
  rw [RoleRows.viewLaneIndexIsOrdered, hasRoutes, Bool.false_or, Bool.and_eq_true,
    Bool.and_eq_true, decide_eq_true_eq, all_eq_true, decide_eq_true_eq] at ordered
  obtain ⟨⟨isLength, isRow⟩, sorted⟩ := ordered
  have isBelow : ∀ row ∈ image.viewLaneIndex, row < image.steps.length :=
    fun row mem => of_decide_eq_true (isRow row mem)
  have isAt : ∀ slot (inside : slot < image.viewLaneIndex.length),
      image.viewLaneIndex[slot]?.getD 0 = image.viewLaneIndex[slot] := fun slot inside => by
    rw [getElem?_eq_getElem inside, Option.getD_some]
  refine ⟨fun slot => image.viewLaneIndex[slot]?.getD 0, fun slot inside => ?_,
    fun row inside => ?_, fun first second le inside => ?_⟩
  · rw [← isLength] at inside
    have isSmall := isBelow _ (getElem_mem inside)
    dsimp only
    rw [isAt slot inside, RoleRows.viewLaneStepAt, getElem?_eq_getElem inside]
    exact ⟨if_pos isSmall, isSmall⟩
  · -- As many different rows as there are rows are all rows.
    have isNodup : image.viewLaneIndex.Nodup := sorted.imp fun {first second} less same =>
      Nat.ne_of_lt less (congrArg _ same)
    have isSubset : image.viewLaneIndex ⊆ List.range image.steps.length := fun row mem =>
      mem_range.mpr (isBelow row mem)
    have isPerm := (subperm_of_subset isNodup isSubset).perm_of_length_le (by
      rw [length_range, isLength])
    obtain ⟨slot, isSlot, same⟩ := getElem_of_mem
      (isPerm.mem_iff.mpr (mem_range.mpr inside))
    exact ⟨slot, isLength ▸ isSlot, (isAt slot isSlot).trans same⟩
  · rw [← isLength] at inside
    dsimp only
    rw [isAt second inside, isAt first (Nat.lt_of_le_of_lt le inside)]
    rcases Nat.eq_or_lt_of_le le with rfl | less
    · exact le_rfl
    · exact Nat.le_of_lt (pairwise_iff_getElem.mp sorted first second _ inside less)

theorem viewLaneStepKey_eq {step : LocalStep} (isStep : image.steps[row]? = some step) :
    image.viewLaneStepKey row =
      step.logicalRole.toNat * 2 ^ 24 + step.atom.lane.toNat * 2 ^ 16 + row := by
  rw [RoleRows.viewLaneStepKey, isStep]

/-- The rows of a view and lane are those whose key has them. -/
theorem isOfViewLane_iff (inside : row < image.steps.length) :
    image.isOfViewLane view lane row = true ↔
      image.viewLaneStepKey row = view.toNat * 2 ^ 24 + lane.toNat * 2 ^ 16 + row := by
  have isStep := getElem?_eq_getElem inside
  rw [viewLaneStepKey_eq isStep, RoleRows.isOfViewLane, isStep, Option.any_some, decide_eq_true_eq,
    ← UInt8.toNat_inj, ← UInt8.toNat_inj]
  have laneSmall := lane.toNat_lt
  have stepLaneSmall := image.steps[row].atom.lane.toNat_lt
  omega

/-- The halving search finds the first place of the index with a key that is not smaller: the row
there is the least of these, and there is none when the place is behind the index. -/
theorem lowerBound_viewLane (hasRoutes : image.routeScopes.isEmpty = false) (key : Nat) :
    ∃ bound, lowerBound (fun slot => do
        return decide (image.viewLaneStepKey (← image.viewLaneStepAt slot) < key))
        image.steps.length 0 image.steps.length = .ok bound ∧
      if bound = image.steps.length then
        ∀ row < image.steps.length, image.viewLaneStepKey row < key
      else ∃ row, image.viewLaneStepAt bound = .ok row ∧ row < image.steps.length ∧
        key ≤ image.viewLaneStepKey row ∧ ∀ other < image.steps.length,
          key ≤ image.viewLaneStepKey other →
            image.viewLaneStepKey row ≤ image.viewLaneStepKey other := by
  obtain ⟨rowAt, isAt, isIndexed, inOrder⟩ := viewLaneIndex_spec hasRoutes
  obtain ⟨bound, isBound, _, isHigh, before, behind⟩ := @lowerBound_spec (fun slot => do
      return decide (image.viewLaneStepKey (← image.viewLaneStepAt slot) < key))
    (fun slot => decide (image.viewLaneStepKey (rowAt slot) < key))
    image.steps.length 0 image.steps.length le_rfl (Nat.zero_le _)
    (fun slot _ high => by rw [(isAt slot high).1]; rfl)
    (fun first second _ le high passes => decide_eq_true
      (Nat.lt_of_le_of_lt (inOrder first second le high) (of_decide_eq_true passes)))
  refine ⟨bound, isBound, ?_⟩
  split
  · rename_i isEnd
    intro row inside
    obtain ⟨slot, isSlot, rfl⟩ := isIndexed row inside
    exact of_decide_eq_true (before slot (Nat.zero_le _) (isEnd ▸ isSlot))
  · rename_i notEnd
    have inside : bound < image.steps.length := Nat.lt_of_le_of_ne isHigh notEnd
    refine ⟨rowAt bound, (isAt bound inside).1, (isAt bound inside).2,
      Nat.not_lt.mp (of_decide_eq_false (behind bound le_rfl inside)), ?_⟩
    intro other isOther isLarger
    obtain ⟨slot, isSlot, rfl⟩ := isIndexed other isOther
    refine inOrder bound slot (Nat.not_lt.mp fun isBefore => ?_) isSlot
    exact Nat.not_lt.mpr isLarger (of_decide_eq_true (before slot (Nat.zero_le _) isBefore))

theorem viewLaneStepAtOrAfter_eq (hasRoutes : image.routeScopes.isEmpty = false)
    (view lane : UInt8) (start : Nat) :
    image.viewLaneStepAtOrAfter view lane start =
      .ok (pendingIn (image.isOfViewLane view lane) start image.steps.length).head? := by
  rw [RoleRows.viewLaneStepAtOrAfter]
  split
  · rename_i isOut
    have isPast := isOut.resolve_left (ne_true_of_eq_false hasRoutes)
    rw [pendingIn, Nat.sub_eq_zero_of_le isPast]
    rfl
  · rename_i isIn
    have coherent := image.coherent
    simp only [RoleRows.armsAreCoherent, Bool.and_eq_true, decide_eq_true_eq] at coherent
    obtain ⟨⟨⟨_, isShort⟩, _⟩, _⟩ := coherent
    obtain ⟨bound, isBound, isLeast⟩ := lowerBound_viewLane hasRoutes
      (view.toNat * 2 ^ 24 + lane.toNat * 2 ^ 16 + start)
    dsimp only
    rw [isBound, Run.bind_ok]
    split at isLeast
    · rename_i isEnd
      rw [if_pos isEnd, pendingIn_eq_nil]
      · rfl
      · intro row low high
        rw [Bool.eq_false_iff, Ne, isOfViewLane_iff high]
        have isSmaller := isLeast row high
        omega
    · rename_i notEnd
      obtain ⟨row, isRow, inside, isLarger, isFirst⟩ := isLeast
      rw [if_neg notEnd, isRow, Run.bind_ok, Run.pure_eq_ok]
      refine congrArg Except.ok ?_
      split
      · rename_i samePrefix
        have isKey := viewLaneStepKey_eq (getElem?_eq_getElem inside)
        have laneSmall := lane.toNat_lt
        have stepLaneSmall := image.steps[row].atom.lane.toNat_lt
        have same : image.viewLaneStepKey row =
            view.toNat * 2 ^ 24 + lane.toNat * 2 ^ 16 + row := by
          rw [isKey] at samePrefix ⊢
          omega
        rw [head?_pendingIn (show start ≤ row by omega) fun other low high => ?_,
          head?_pendingIn_self inside ((isOfViewLane_iff inside).mpr same)]
        rw [Bool.eq_false_iff, Ne, isOfViewLane_iff (Nat.lt_trans high inside)]
        intro isOther
        have isLess := isFirst other (Nat.lt_trans high inside) (by omega)
        omega
      · rename_i otherPrefix
        rw [pendingIn_eq_nil]
        · rfl
        · intro other low high
          rw [Bool.eq_false_iff, Ne, isOfViewLane_iff high]
          intro isKey
          have isLess := isFirst other high (by omega)
          omega

end RoleImage

namespace EventCursor

/-- The rows of a view and lane that an offer may find. -/
def isCandidate (cursor : EventCursor) (view lane : UInt8) (selected : SelectedArms) (row : Nat) :
    Bool :=
  cursor.image.isOfViewLane view lane row && cursor.isPending row &&
    cursor.isLive selected selected row

variable {cursor : EventCursor}

theorem potentialOfferLaneStep_eq (hasRoutes : cursor.image.routeScopes.isEmpty = false)
    (view lane : UInt8) (selected : SelectedArms) {fuel start : Nat}
    (enough : cursor.localStepsLen - start < fuel) :
    cursor.potentialOfferLaneStep view lane selected fuel start =
      .ok (pendingIn (cursor.isCandidate view lane selected) start cursor.localStepsLen).head? := by
  induction fuel generalizing start with
  | zero => exact absurd enough (Nat.not_lt_zero _)
  | succ fuel hyp =>
    rw [potentialOfferLaneStep, RoleImage.viewLaneStepAtOrAfter_eq hasRoutes, Run.bind_ok,
      show cursor.image.steps.length = cursor.localStepsLen from rfl]
    cases isHead : (pendingIn (cursor.image.isOfViewLane view lane) start
        cursor.localStepsLen).head? with
    | none =>
      rw [pendingIn_eq_nil fun row low high => ?_]
      · rfl
      · have isAbsent := head?_eq_none_iff.mp isHead
        rw [isCandidate, Bool.and_assoc, Bool.and_eq_false_iff]
        refine .inl (Bool.eq_false_iff.mpr fun isOf => ?_)
        have mem := mem_pendingIn.mpr ⟨low, high, isOf⟩
        rw [isAbsent] at mem
        cases mem
    | some row =>
      obtain ⟨low, high, isOf, isFirst⟩ := of_head?_pendingIn isHead
      have isStep := getElem?_eq_getElem (show row < cursor.image.steps.length from high)
      rw [head?_pendingIn low fun other isLow isHigh => by
        rw [isCandidate, isFirst other isLow isHigh, Bool.false_and, Bool.false_and]]
      have skip : cursor.isCandidate view lane selected row = false →
          cursor.potentialOfferLaneStep view lane selected fuel (row + 1) =
            .ok (pendingIn (cursor.isCandidate view lane selected) row
              cursor.localStepsLen).head? := by
        intro isPassed
        rw [hyp (by omega), head?_pendingIn (Nat.le_succ row) fun other isLow isHigh => ?_]
        rwa [Nat.le_antisymm (Nat.le_of_lt_succ isHigh) isLow]
      dsimp only
      split
      · rename_i isDone
        exact skip (by rw [isCandidate, isPending, isDone, Bool.not_true, Bool.and_false,
          Bool.false_and])
      · rename_i isPending
        rw [rowAdmission_eq isStep]
        rcases cursor.image.admission_spec isStep selected with ⟨isAllowed, isOpen⟩ |
          ⟨decision, range, isExcluded, isRange, _, isLater, all⟩
        · rw [isAllowed, Run.bind_ok]
          dsimp only
          split
          · rename_i isLocal
            rw [head?_pendingIn_self high
              (by simp_all [isCandidate, EventCursor.isPending, isLive])]
            rfl
          · rename_i isOther
            exact skip (by simp_all [isCandidate, isLive])
        · rw [isExcluded, Run.bind_ok]
          dsimp only
          rw [isRange, Run.bind_ok, hyp (by omega), head?_pendingIn (Nat.le_of_lt isLater)
            fun other isLow isHigh => by simp [isCandidate, isLive, all other isLow isHigh]]

end EventCursor

/-- The scans of a cursor without saved roll credits. The end of an arm that excludes a row is found
and is behind the row, and every scan answers like a test of every pending row of its range: the
lane head check, the dependency rows, the live row set, the wait for a predecessor, and, in an
image with routes, the first row for an offer. -/
theorem scans_test_every_row (cursor : EventCursor)
    (noCredits : cursor.hasRetainedRollCompletion = false) (selected : SelectedArms) :
    (∀ row decision preview, row < cursor.localStepsLen →
      (cursor.image.eventConflictRowAdmission (cursor.image.eventConflictForIndex row) none none
          selected = .ok (.excluded decision) ∨
        cursor.eventConflictRowAdmissionWithPreview (cursor.image.eventConflictForIndex row) preview
          selected = .ok (.excluded decision)) →
      ∃ stop, cursor.image.excludedArmEnd row decision = .ok stop ∧ row < stop) ∧
    (∀ target lane preview role, target ≤ cursor.localStepsLen →
      cursor.eventLaneHeadAllowsView target lane preview role selected =
        .ok ((pendingIn cursor.isPending 0 target).all fun row =>
          !cursor.isAhead lane preview role selected row)) ∧
    (∀ target start stop, start ≤ stop → stop ≤ cursor.localStepsLen →
      cursor.dependencyRowLiveEventsDone target start stop selected =
        .ok ((pendingIn cursor.isPending start stop).all fun row =>
          !cursor.isLive selected selected row)) ∧
    (∀ start stop, start ≤ stop → stop ≤ cursor.localStepsLen →
      cursor.eventRowSetLiveEventsDone start stop selected =
        .ok ((pendingIn cursor.isPending start stop).all fun row =>
          !cursor.isLive selected selected row)) ∧
    (∀ (index : Nat) after view moved conflict, cursor.image.steps[index]? = some after →
      cursor.sourcePredecessorWait index view moved conflict selected =
        let rows := pendingIn cursor.isPending 0 index
        let needs := cursor.isPrerequisite after view moved conflict selected
        .ok (if rows.any fun row => needs row && cursor.usesViewAt row view then .predecessorPending
          else if rows.any needs then .payloadPredecessorPending else .otherViewPending)) ∧
    ∀ view lane start fuel, cursor.localStepsLen - start < fuel →
      cursor.image.routeScopes.isEmpty = false →
      cursor.potentialOfferLaneStep view lane selected fuel start =
        .ok (pendingIn (cursor.isCandidate view lane selected) start
          cursor.localStepsLen).head? := by
  refine ⟨fun row decision preview inside isExcluded => ?_, fun target lane preview role inside =>
    EventCursor.eventLaneHeadAllowsView_eq noCredits inside lane preview role selected,
    fun target start stop ordered inside =>
      EventCursor.dependencyRowLiveEventsDone_eq noCredits target ordered inside selected,
    fun start stop ordered inside =>
      EventCursor.eventRowSetLiveEventsDone_eq ordered inside selected,
    fun index after view moved conflict isAfter =>
      EventCursor.sourcePredecessorWait_eq isAfter view moved conflict selected,
    fun view lane start fuel enough hasRoutes =>
      EventCursor.potentialOfferLaneStep_eq hasRoutes view lane selected enough⟩
  have isStep := getElem?_eq_getElem (show row < cursor.image.steps.length from inside)
  rcases isExcluded with isExcluded | isExcluded
  · rw [EventCursor.rowAdmission_eq isStep] at isExcluded
    exact RoleImage.excludedArmEnd_of_admission isStep isExcluded
  · rw [RoleRows.eventConflictForIndex, isStep] at isExcluded
    exact RoleImage.excludedArmEnd_of_admission isStep isExcluded

/-- Nothing is known of another program than that all events are of one actor. -/
def plainReads : ProgramReads where
  role := 0
  actorDecisionCount := 0
  selectedActor := fun _ _ _ => none
  sourcePrecedes := fun before after => before < after
  sourceRouteAncestorArm := fun _ _ => none
  rollScopeCount := 0
  rollAncestors := fun _ => []

/-- A send of role 0 on lane 0. -/
def sendStep (effect : Nat) (conflict : PackedEventConflict) : LocalStep :=
  ⟨effect, .send, ⟨0, 1, 7, .wire 0, 0⟩, conflict⟩

/-- An image with one row and no routes. -/
def singleRow : EventCursor where
  image := {
    routeScopes := [], routeIndex := [], routeScopeConflicts := [], routeCommitRanges := []
    routeCommitRows := [], maxRouteCommitCount := 0, steps := [sendStep 0 .none]
    routeArms := [], viewLaneIndex := []
    indexed := by decide, exact := by decide, chained := by decide
    coherent := by decide, walked := by decide, ordered := by decide }
  program := plainReads
  completedEventWords := [0]

/-- An image without routes has no index: its pending row is not found for an offer. -/
theorem singleRow_has_no_offer :
    singleRow.potentialOfferLaneStep 0 0 (fun _ => none) 2 0 = .ok none ∧
      (pendingIn (singleRow.isCandidate 0 0 fun _ => none) 0 1).head? = some 0 := by
  decide

/-- Three rows: those of an inner route in the left arm of an outer one,
and one in its right arm. -/
def nestedRows : EventCursor where
  image := {
    toRouteColumns := nestedRoutes.toRouteColumns
    steps := [3, 5, 1].zipIdx.map fun (row, effect) =>
      sendStep effect (nestedRoutes.routeCommitRows.getD row .none)
    routeArms := [⟨0, 2⟩, ⟨2, 1⟩, ⟨0, 1⟩, ⟨1, 1⟩], viewLaneIndex := [0, 1, 2]
    indexed := by decide, exact := by decide, chained := by decide
    coherent := by decide, walked := by decide, ordered := by decide }
  program := plainReads
  completedEventWords := [0]

/-- With the right arm of the outer route selected, an offer finds the row of that arm. -/
theorem scans_test_every_row_nested :
    nestedRows.potentialOfferLaneStep 0 0 (fun scope => if scope.ordinal = 0 then some 1 else none)
      4 0 = .ok (some 2) := by
  obtain ⟨_, _, _, _, _, offers⟩ := scans_test_every_row nestedRows (by decide)
    fun scope => if scope.ordinal = 0 then some 1 else none
  rw [offers 0 0 0 4 (by decide) (by decide)]
  decide

end Hibana
