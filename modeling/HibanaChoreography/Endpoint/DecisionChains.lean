/-
This file models the chains of route decisions that a commit collects, in
`endpoint/kernel/decision_state.rs`, over the columns of a role image that hold them.

The image has one chain for every arm of every route: the decisions from the outermost
route down to that arm. The constructor of the image checks each chain against the
parents of the routes. So the decisions of one chain contain those of another exactly
when the other chain is a prefix, and the decision of a route has one place in all
chains, which is how chains are merged and read without a search.
-/

import HibanaChoreography.Library.Lineage
import HibanaChoreography.Library.Run
import HibanaChoreography.Lowering.EffList

namespace Hibana

open Outcome Lineage List

/-! ### Words -/

/-- A decision: an arm of a route. -/
structure RouteArm where
  scope : ScopeId
  arm : Nat
  deriving DecidableEq, Repr

/-- A decision in one word: the arm is bit 0, the ordinal of the route bits 1 to 13, and bit 14
marks a route that is entered again. Two other words are for no decision. -/
structure PackedEventConflict where
  raw : Nat
  decodes : raw < 2 ^ 15 ∨ raw = 0xffff ∨ raw = 0xc000
  deriving DecidableEq, Repr

namespace PackedEventConflict

def none : PackedEventConflict := ⟨0xffff, .inr (.inl rfl)⟩

def isNone (conflict : PackedEventConflict) : Bool :=
  conflict.raw = 0xffff ∨ conflict.raw = 0xc000

def routeArm (scope : ScopeId) (arm : Nat) : Run PackedEventConflict :=
  if valid : scope.kind = .route ∧ scope.ordinal < ScopeId.localCapacity ∧ arm ≤ 1 then
    .ok ⟨scope.ordinal * 2 + arm, .inl (by
      have small := valid.2.1
      unfold ScopeId.localCapacity at small
      omega)⟩
  else .error .invariant

/-- The word without the mark for another entry, `with_route_reentry(SinglePass)`. -/
def singlePass (conflict : PackedEventConflict) : PackedEventConflict :=
  if conflict.isNone then none else ⟨conflict.raw % 2 ^ 14, .inl (by omega)⟩

def toConflict (conflict : PackedEventConflict) : Option RouteArm :=
  if conflict.isNone then .none
  else some ⟨⟨.route, conflict.raw / 2 % ScopeId.localCapacity⟩, conflict.raw % 2⟩

variable {left right conflict : PackedEventConflict}

theorem routeArm_eq {scope : ScopeId} {arm : Nat} (isRoute : scope.kind = .route)
    (small : scope.ordinal < ScopeId.localCapacity) (isArm : arm ≤ 1) :
    ∃ conflict, routeArm scope arm = .ok conflict ∧ conflict.toConflict = some ⟨scope, arm⟩ := by
  refine ⟨_, dif_pos ⟨isRoute, small, isArm⟩, ?_⟩
  obtain ⟨kind, ordinal⟩ := scope
  cases isRoute
  unfold ScopeId.localCapacity at small
  have notNone : isNone ⟨ordinal * 2 + arm, .inl (by dsimp only at small; omega)⟩ = false := by
    refine decide_eq_false ?_
    dsimp only at small ⊢
    omega
  dsimp only at small
  rw [toConflict, notNone, if_neg Bool.false_ne_true]
  unfold ScopeId.localCapacity
  rw [show (ordinal * 2 + arm) / 2 % 8192 = ordinal by omega,
    show (ordinal * 2 + arm) % 2 = arm by omega]

theorem arm_le_one {decision : RouteArm} (isDecision : conflict.toConflict = some decision) :
    decision.arm ≤ 1 := by
  unfold toConflict at isDecision
  split at isDecision
  · cases isDecision
  · rw [← Option.some.inj isDecision]
    exact Nat.le_of_lt_succ (Nat.mod_lt _ (by decide))

/-- The mark is all that words of one decision differ in. -/
theorem singlePass_eq_iff {first second : RouteArm} (isLeft : left.toConflict = some first)
    (isRight : right.toConflict = some second) :
    left.singlePass = right.singlePass ↔ first = second := by
  unfold toConflict at isLeft isRight
  split at isLeft
  · cases isLeft
  rename_i leftSome
  split at isRight
  · cases isRight
  rename_i rightSome
  rw [singlePass, singlePass, if_neg leftSome, if_neg rightSome, ← Option.some.inj isLeft,
    ← Option.some.inj isRight, PackedEventConflict.mk.injEq, RouteArm.mk.injEq, ScopeId.mk.injEq]
  have leftSmall := left.decodes
  have rightSmall := right.decodes
  rw [isNone, decide_eq_true_eq, not_or] at leftSome rightSome
  unfold ScopeId.localCapacity
  constructor
  · intro same
    exact ⟨⟨rfl, by omega⟩, by omega⟩
  · rintro ⟨⟨_, sameOrdinal⟩, sameArm⟩
    omega

def decisionsMatch (left right : PackedEventConflict) : Bool :=
  match left.toConflict, right.toConflict with
  | some first, some second => first = second
  | _, _ => false

end PackedEventConflict

/-- A range of rows, `PackedLaneRange`: both halves of one word. -/
structure PackedLaneRange where
  start : UInt16
  len : UInt16
  deriving DecidableEq, Repr

namespace PackedLaneRange

def empty : PackedLaneRange := ⟨0xffff, 0xffff⟩

def isAbsentOrZeroLen (range : PackedLaneRange) : Bool := range = empty ∨ range.len = 0

def stop (range : PackedLaneRange) : Nat := range.start.toNat + range.len.toNat

end PackedLaneRange

/-! ### The columns of an image -/

/-- The columns for route decisions: the routes by slot, the slot of every route by its ordinal,
the decision around each route, and the chains, two for a slot. -/
structure RouteColumns where
  routeScopes : List Nat
  routeIndex : List Nat
  routeScopeConflicts : List PackedEventConflict
  routeCommitRanges : List PackedLaneRange
  routeCommitRows : List PackedEventConflict
  maxRouteCommitCount : Nat

namespace RouteColumns

variable (image : RouteColumns)

def routeScopeSlot (scope : ScopeId) : Option Nat :=
  if scope.kind = .route then image.routeIndex[scope.ordinal]?.filter (· ≠ 0xffff) else none

/-- Every route has one slot, and every slot in the index is that of its route. -/
def routeIndexIsCoherent : Bool :=
  decide (image.routeIndex.length ≤ ScopeId.localCapacity) &&
  (image.routeScopes.zipIdx.all fun (raw, slot) => image.routeIndex[raw]? = some slot) &&
  decide (image.routeScopes.foldl (fun extent raw => max extent (raw + 1)) 0 =
    image.routeIndex.length) &&
  image.routeIndex.zipIdx.all fun (slot, raw) =>
    slot = 0xffff ∨ image.routeScopes[slot]? = some raw

/-- The ranges follow each other: the end of the last one, and the longest one. -/
def commitPartition (rowCount : Nat) : List PackedLaneRange → Nat → Nat → Option (Nat × Nat)
  | [], expectedStart, observedMax => some (expectedStart, observedMax)
  | range :: rest, expectedStart, observedMax =>
    if range = .empty ∨ range.start.toNat ≠ expectedStart ∨ range.len = 0 ∨
        rowCount < range.stop then none
    else commitPartition rowCount rest range.stop (max observedMax range.len.toNat)

def routeCommitCapacityIsExact : Bool :=
  commitPartition image.routeCommitRows.length image.routeCommitRanges 0 0 =
    some (image.routeCommitRows.length, image.maxRouteCommitCount)

def certifiedRouteCommitRangeBySlot (slot arm : Nat) : Run PackedLaneRange :=
  match image.routeCommitRanges[slot * 2 + arm]? with
  | none => .error .invariant
  | some row =>
    if row.len = 0 ∨ image.routeCommitRows.length < row.stop then .error .invariant else .ok row

/-- The rows of a range. -/
def rowsIn (range : PackedLaneRange) : List PackedEventConflict :=
  (image.routeCommitRows.drop range.start.toNat).take range.len.toNat

/-- The checks of a chain from its last row up: every row is the decision around the route of the
row below it, and the first row is that of a route without one. -/
def chainRowsMatch : PackedEventConflict → List PackedEventConflict → Bool
  | _, [] => true
  | expected, current :: above =>
    current.decisionsMatch expected &&
    match current.toConflict.bind fun decision => image.routeScopeSlot decision.scope with
    | none => false
    | some slot =>
      match image.routeScopeConflicts[slot]? with
      | none => false
      | some parent => (above.isEmpty == parent.isNone) && chainRowsMatch parent above

/-- The chain of an arm. -/
def chainIsValid (slot arm : Nat) : Bool :=
  match image.routeScopes[slot]? with
  | none => false
  | some ordinal =>
    match image.certifiedRouteCommitRangeBySlot slot arm,
      PackedEventConflict.routeArm ⟨.route, ordinal⟩ arm with
    | .ok row, .ok expected => image.chainRowsMatch expected (image.rowsIn row).reverse
    | _, _ => false

def validateRouteCommitChains : Bool :=
  (List.range image.routeScopes.length).all fun slot => [0, 1].all (image.chainIsValid slot)

/-! ### Reads of an image -/

def routeCommitRangeForConflict (conflict : PackedEventConflict) :
    Run (Option PackedLaneRange) := do
  match conflict.toConflict with
  | none => return none
  | some decision =>
    match image.routeScopeSlot decision.scope with
    | none => return none
    | some slot =>
      let range ← image.certifiedRouteCommitRangeBySlot slot decision.arm
      return if range.isAbsentOrZeroLen then none else some range

def routeCommitRowsOf (range : PackedLaneRange) : Run (List PackedEventConflict) :=
  if range.isAbsentOrZeroLen then .ok []
  else if image.routeCommitRows.length < range.stop then .error .invariant
  else .ok (image.rowsIn range)

end RouteColumns

/-- An image that the constructor has published. -/
structure SealedColumns extends RouteColumns where
  indexed : toRouteColumns.routeIndexIsCoherent = true
  exact : toRouteColumns.routeCommitCapacityIsExact = true
  chained : toRouteColumns.validateRouteCommitChains = true

instance : Coe SealedColumns RouteColumns := ⟨SealedColumns.toRouteColumns⟩

/-! ### Chains of a commit -/

/-- A chain by its range in the image. -/
structure SelectedRouteCommitRowsRef where
  range : PackedLaneRange
  lane : UInt8
  deriving DecidableEq, Repr

namespace SelectedRouteCommitRowsRef

variable (rows : SelectedRouteCommitRowsRef) (image : RouteColumns)

def empty : SelectedRouteCommitRowsRef := ⟨.empty, 0⟩

def fromResidentRangeForLane (range : PackedLaneRange) (routeLane : UInt8) :
    SelectedRouteCommitRowsRef :=
  if range.isAbsentOrZeroLen then empty else ⟨range, routeLane⟩

def isEmpty : Bool := rows.range.isAbsentOrZeroLen

def len : Nat := if rows.isEmpty then 0 else rows.range.len.toNat

def selectedLane : Option UInt8 := if rows.isEmpty then none else some rows.lane

def matchesRange (range : PackedLaneRange) : Bool :=
  if range.isAbsentOrZeroLen then rows.isEmpty
  else (if rows.isEmpty then PackedLaneRange.empty else rows.range) = range

/-- The row at an index, when it is a decision. -/
def get (index : Nat) : Run (Option PackedEventConflict) := do
  if rows.len ≤ index then return none
  else
    let words ← image.routeCommitRowsOf rows.range
    return words[index]?.filter (·.toConflict.isSome)

def isCompleteChain : Run Bool := do
  if rows.isEmpty then return true
  else
    match ← rows.get image (rows.len - 1) with
    | none => return false
    | some last =>
      match ← image.routeCommitRangeForConflict last with
      | none => return false
      | some range => return rows.matchesRange range

/-- The arm of a route in a chain, at the place that the route has in all chains. -/
def armForScope (scope : ScopeId) : Run (Option Nat) := do
  if rows.isEmpty ∨ scope.kind ≠ .route then return none
  else
    match ← image.routeCommitRangeForConflict (← PackedEventConflict.routeArm scope 0) with
    | none => return none
    | some range =>
      if range.len = 0 then return none
      else
        match ← rows.get image (range.len.toNat - 1) with
        | none => return none
        | some row =>
          match row.toConflict with
          | none => .error .invariant
          | some decision => return if decision.scope = scope then some decision.arm else none

def startsWith (other : SelectedRouteCommitRowsRef) : Run Bool := do
  if rows.len < other.len then return false
  else
    let own ← image.routeCommitRowsOf rows.range
    let others ← image.routeCommitRowsOf other.range
    return (own.zip others).all fun (left, right) => left.singlePass = right.singlePass

end SelectedRouteCommitRowsRef

inductive RecvError where
  | phaseInvariant
  deriving DecidableEq, Repr

/-- The chain that a commit has collected. -/
structure SelectedRouteCommitRows where
  routes : SelectedRouteCommitRowsRef
  maxLen : UInt16
  deriving DecidableEq, Repr

def SelectedRouteCommitRows.mergeChain (rows : SelectedRouteCommitRows) (image : RouteColumns)
    (lane : UInt8) (conflict : PackedEventConflict) :
    Run (Except RecvError SelectedRouteCommitRows) := do
  match ← image.routeCommitRangeForConflict conflict with
  | none => return .error .phaseInvariant
  | some range =>
    if rows.maxLen < range.len then return .error .phaseInvariant
    else
      let incoming := SelectedRouteCommitRowsRef.fromResidentRangeForLane range lane
      if rows.routes.isEmpty then return .ok { rows with routes := incoming }
      else if rows.routes.selectedLane ≠ some lane then return .error .phaseInvariant
      else if ← rows.routes.startsWith image incoming then return .ok rows
      else if ← incoming.startsWith image rows.routes then
        return .ok { rows with routes := incoming }
      else return .error .phaseInvariant

/-! ### Chains of a published image -/

/-- The decision around a route. -/
def RouteColumns.parentOf (image : RouteColumns) (scope : ScopeId) : Option RouteArm :=
  (image.routeScopeSlot scope).bind fun slot =>
    image.routeScopeConflicts[slot]?.bind PackedEventConflict.toConflict

open PackedEventConflict (toConflict arm_le_one routeArm_eq singlePass_eq_iff)

theorem PackedEventConflict.eq_of_decisionsMatch {left right : PackedEventConflict}
    (isMatch : left.decisionsMatch right = true) :
    ∃ decision, left.toConflict = some decision ∧ right.toConflict = some decision := by
  unfold decisionsMatch at isMatch
  split at isMatch
  · rename_i first second isFirst isSecond
    obtain rfl := of_decide_eq_true isMatch
    exact ⟨first, isFirst, isSecond⟩
  · cases isMatch

/-- Rows that pass the checks of a chain are the decisions from a route up to its root. -/
theorem RouteColumns.climbs_of_chainRowsMatch {image : RouteColumns}
    {rows : List PackedEventConflict} {expected : PackedEventConflict}
    (isMatch : image.chainRowsMatch expected rows = true) :
    ∃ steps, rows.map toConflict = steps.map some ∧ Climbs RouteArm.scope image.parentOf steps ∧
      (∀ step ∈ steps, image.routeScopeSlot step.scope ≠ none) ∧
      (rows ≠ [] → steps.head? = expected.toConflict) := by
  induction rows generalizing expected with
  | nil => exact ⟨[], rfl, trivial, nofun, absurd rfl⟩
  | cons current above hyp =>
    rw [chainRowsMatch, Bool.and_eq_true] at isMatch
    obtain ⟨same, isChecked⟩ := isMatch
    obtain ⟨decision, isCurrent, isExpected⟩ := PackedEventConflict.eq_of_decisionsMatch same
    rw [isCurrent, Option.bind_some] at isChecked
    split at isChecked
    · cases isChecked
    · rename_i slot isSlot
      split at isChecked
      · cases isChecked
      · rename_i parent isParent
        rw [Bool.and_eq_true, beq_iff_eq] at isChecked
        obtain ⟨isRoot, isAbove⟩ := isChecked
        obtain ⟨steps, isSteps, climbs, slotted, isHead⟩ := hyp isAbove
        refine ⟨decision :: steps, by rw [map_cons, map_cons, isCurrent, isSteps],
          ⟨?_, climbs⟩, forall_mem_cons.mpr ⟨isSlot ▸ Option.some_ne_none _, slotted⟩,
          fun _ => isExpected.symm⟩
        rw [parentOf, isSlot, Option.bind_some, isParent, Option.bind_some]
        cases above with
        | nil =>
          rw [map_nil, eq_comm, map_eq_nil_iff] at isSteps
          rw [isSteps, toConflict, if_pos (show parent.isNone = true from isRoot.symm),
            head?_nil]
        | cons next rest => exact (isHead (cons_ne_nil _ _)).symm

variable {range : PackedLaneRange}

theorem RouteColumns.ne_empty_of_commitPartition {rowCount : Nat} {ranges : List PackedLaneRange}
    {start observed : Nat} {result : Nat × Nat}
    (isSome : commitPartition rowCount ranges start observed = some result)
    (mem : range ∈ ranges) : range ≠ .empty := by
  induction ranges generalizing start observed with
  | nil => cases mem
  | cons first rest hyp =>
    rw [commitPartition] at isSome
    split at isSome
    · cases isSome
    · rename_i accepted
      rcases mem_cons.mp mem with rfl | inRest
      · exact fun isEmpty => accepted (.inl isEmpty)
      · exact hyp isSome inRest

/-- The decisions of a chain, from its last row up. -/
structure RouteColumns.Lists (image : RouteColumns) (range : PackedLaneRange)
    (steps : List RouteArm) : Prop where
  climbs : Climbs RouteArm.scope image.parentOf steps
  slotted : ∀ step ∈ steps, image.routeScopeSlot step.scope ≠ none
  rows : ∃ words, image.routeCommitRowsOf range = .ok words ∧
    words.map toConflict = steps.reverse.map some

namespace SealedColumns

variable {image : SealedColumns} {scope : ScopeId} {slot arm : Nat}

/-- The slot of a route in the index is that of the route. -/
theorem routeScopes_of_slot (isSlot : image.routeScopeSlot scope = some slot) :
    scope.kind = .route ∧ image.routeScopes[slot]? = some scope.ordinal ∧
      scope.ordinal < ScopeId.localCapacity := by
  have isCoherent := image.indexed
  unfold RouteColumns.routeScopeSlot at isSlot
  split at isSlot
  · rename_i isRoute
    obtain ⟨isIndexed, present⟩ := Option.filter_eq_some_iff.mp isSlot
    rw [RouteColumns.routeIndexIsCoherent, Bool.and_eq_true, Bool.and_eq_true, Bool.and_eq_true,
      all_eq_true, all_eq_true] at isCoherent
    obtain ⟨⟨⟨short, _⟩, _⟩, back⟩ := isCoherent
    obtain ⟨inside, isEntry⟩ := List.getElem?_eq_some_iff.mp isIndexed
    have isBack := of_decide_eq_true (back (slot, scope.ordinal) (by
      rw [mk_mem_zipIdx_iff_getElem?]
      exact isIndexed))
    refine ⟨isRoute, isBack.resolve_left (of_decide_eq_true present), ?_⟩
    exact Nat.lt_of_lt_of_le inside (of_decide_eq_true short)
  · cases isSlot

theorem range_of_certified (isRange : image.certifiedRouteCommitRangeBySlot slot arm = .ok range) :
    range.isAbsentOrZeroLen = false ∧ 0 < range.len.toNat ∧
      range.stop ≤ image.routeCommitRows.length := by
  unfold RouteColumns.certifiedRouteCommitRangeBySlot at isRange
  split at isRange
  · cases isRange
  · rename_i row isRow
    split at isRange
    · cases isRange
    · rename_i valid
      cases isRange
      obtain ⟨filled, inside⟩ := not_or.mp valid
      have present := RouteColumns.ne_empty_of_commitPartition (of_decide_eq_true image.exact)
        (mem_of_getElem? isRow)
      refine ⟨decide_eq_false (not_or.mpr ⟨present, filled⟩), ?_, Nat.not_lt.mp inside⟩
      exact Nat.pos_of_ne_zero fun isZero => filled (UInt16.toNat.inj isZero)

/-- The chain of an arm lists the decisions from the arm up. -/
theorem chain_of_slot (isSlot : image.routeScopeSlot scope = some slot) (isArm : arm ≤ 1) :
    ∃ range steps, image.certifiedRouteCommitRangeBySlot slot arm = .ok range ∧
      range.isAbsentOrZeroLen = false ∧ image.Lists range (⟨scope, arm⟩ :: steps) ∧
      range.len.toNat = steps.length + 1 := by
  obtain ⟨isRoute, isScope, small⟩ := routeScopes_of_slot isSlot
  obtain ⟨kind, ordinal⟩ := scope
  cases isRoute
  have isValid : image.chainIsValid slot arm = true := by
    have chained := image.chained
    rw [RouteColumns.validateRouteCommitChains, all_eq_true] at chained
    obtain ⟨inside, _⟩ := List.getElem?_eq_some_iff.mp isScope
    refine all_eq_true.mp (chained slot (mem_range.mpr inside)) arm ?_
    rw [mem_cons, mem_singleton]
    omega
  obtain ⟨expected, isExpected, isDecision⟩ := routeArm_eq rfl small isArm
  rw [RouteColumns.chainIsValid, isScope] at isValid
  dsimp only at isValid
  rw [isExpected] at isValid
  split at isValid
  · rename_i row word isRow isWord
    cases isWord
    obtain ⟨listed, isListed, climbs, slotted, isHead⟩ :=
      RouteColumns.climbs_of_chainRowsMatch isValid
    obtain ⟨present, filled, inside⟩ := range_of_certified isRow
    have isLength : (image.rowsIn row).length = row.len.toNat := by
      rw [RouteColumns.rowsIn, length_take, length_drop]
      unfold PackedLaneRange.stop at inside
      omega
    have sameLength := congrArg List.length isListed
    rw [length_map, length_map, length_reverse, isLength] at sameLength
    have isFirst := isHead fun isNil => by
      have noRows := congrArg List.length isNil
      rw [length_reverse, isLength, length_nil] at noRows
      omega
    obtain ⟨steps, rfl⟩ := head?_eq_some_iff.mp (isFirst.trans isDecision)
    refine ⟨row, steps, isRow, present, ⟨climbs, slotted, image.rowsIn row, ?_, ?_⟩, sameLength⟩
    · rw [RouteColumns.routeCommitRowsOf, present, if_neg Bool.false_ne_true,
        if_neg (Nat.not_lt.mpr inside)]
    · rw [map_reverse] at isListed ⊢
      rw [← isListed, reverse_reverse]
  · cases isValid

/-- The chain that a conflict names. -/
theorem rangeForConflict (image : SealedColumns) (conflict : PackedEventConflict) :
    image.routeCommitRangeForConflict conflict = .ok none ∧
        (∀ decision, conflict.toConflict = some decision →
          image.routeScopeSlot decision.scope = none) ∨
      ∃ decision range steps, conflict.toConflict = some decision ∧
        image.routeCommitRangeForConflict conflict = .ok (some range) ∧
        range.isAbsentOrZeroLen = false ∧ image.Lists range (decision :: steps) ∧
        range.len.toNat = steps.length + 1 := by
  unfold RouteColumns.routeCommitRangeForConflict
  cases isDecision : conflict.toConflict with
  | none => exact .inl ⟨rfl, nofun⟩
  | some decision =>
    dsimp only
    cases isSlot : image.routeScopeSlot decision.scope with
    | none =>
      refine .inl ⟨rfl, fun other isOther => ?_⟩
      rw [← Option.some.inj isOther]
      exact isSlot
    | some slot =>
      obtain ⟨range, steps, isRange, present, lists, isLength⟩ :=
        chain_of_slot isSlot (arm_le_one isDecision)
      refine .inr ⟨decision, range, steps, rfl, ?_, present, lists, isLength⟩
      dsimp only
      rw [isRange, Run.bind_ok, present]
      rfl

end SealedColumns

namespace SelectedRouteCommitRowsRef

variable {image : RouteColumns} {rows other : SelectedRouteCommitRowsRef}
  {steps others : List RouteArm}

/-- The decisions of a chain, from the outermost one down. -/
def decisions (rows : SelectedRouteCommitRowsRef) (image : RouteColumns) : List RouteArm :=
  if rows.isEmpty then [] else (image.rowsIn rows.range).filterMap toConflict

/-- A chain and its decisions, from the last one up. -/
structure Lists (rows : SelectedRouteCommitRowsRef) (image : RouteColumns)
    (steps : List RouteArm) : Prop where
  range : image.Lists rows.range steps
  len : rows.len = steps.length

theorem Lists.decisions_eq (lists : rows.Lists image steps) :
    rows.decisions image = steps.reverse := by
  obtain ⟨words, isOk, isWords⟩ := lists.range.rows
  have isListed : words.filterMap toConflict = steps.reverse := by
    have isMapped := congrArg (List.filterMap id) isWords
    rwa [filterMap_map, filterMap_map, Function.id_comp, Function.id_comp,
      filterMap_some] at isMapped
  rw [← isListed, decisions]
  rw [RouteColumns.routeCommitRowsOf, show rows.range.isAbsentOrZeroLen = rows.isEmpty from rfl]
    at isOk
  split at isOk
  · rename_i isEmpty
    rw [if_pos isEmpty, ← Except.ok.inj isOk]
    rfl
  · rename_i present
    rw [if_neg present]
    split at isOk
    · cases isOk
    · rw [Except.ok.inj isOk]

/-- The row at an index is the decision at that distance from the root. -/
theorem Lists.get_eq (lists : rows.Lists image steps) (index : Nat) :
    ∃ found, rows.get image index = .ok found ∧
      found.map toConflict = steps.reverse[index]?.map some := by
  obtain ⟨words, isOk, isWords⟩ := lists.range.rows
  have isWord := congrArg (·[index]?) isWords
  simp only [getElem?_map] at isWord
  rw [get]
  split
  · rename_i isEnd
    refine ⟨none, rfl, ?_⟩
    rw [lists.len, ← length_reverse] at isEnd
    rw [getElem?_eq_none isEnd]
    rfl
  · rw [isOk, Run.bind_ok]
    refine ⟨_, rfl, ?_⟩
    rw [← isWord]
    cases isFound : words[index]? with
    | none => rfl
    | some word =>
      rw [isFound, Option.map_some, eq_comm, Option.map_eq_some_iff] at isWord
      obtain ⟨decision, _, isDecision⟩ := isWord
      rw [Option.filter_some, if_pos (by rw [← isDecision]; rfl)]

theorem zip_all_iff {own theirs : List PackedEventConflict} {first second : List RouteArm}
    (isOwn : own.map toConflict = first.map some)
    (isTheirs : theirs.map toConflict = second.map some) (short : second.length ≤ first.length) :
    ((own.zip theirs).all fun (left, right) => left.singlePass = right.singlePass) = true ↔
      second <+: first := by
  induction theirs generalizing own first second with
  | nil =>
    rw [map_nil, eq_comm, map_eq_nil_iff] at isTheirs
    rw [isTheirs, zip_nil_right]
    exact iff_of_true rfl nil_prefix
  | cons right theirs hyp =>
    obtain ⟨_, second, rfl, isRight, isRest⟩ := map_eq_cons_iff.mp isTheirs.symm
    cases own with
    | nil =>
      rw [map_nil, eq_comm, map_eq_nil_iff] at isOwn
      rw [isOwn] at short
      exact absurd short (Nat.not_succ_le_zero _)
    | cons left own =>
      obtain ⟨_, first, rfl, isLeft, isOwnRest⟩ := map_eq_cons_iff.mp isOwn.symm
      rw [zip_cons_cons, all_cons, Bool.and_eq_true, decide_eq_true_eq,
        singlePass_eq_iff isLeft.symm isRight.symm, cons_prefix_cons,
        hyp isOwnRest.symm isRest.symm (Nat.le_of_succ_le_succ short), eq_comm]

/-- A chain starts with another one when its decisions contain the others. -/
theorem Lists.startsWith_eq (lists : rows.Lists image steps)
    (otherLists : other.Lists image others) :
    ∃ starts, rows.startsWith image other = .ok starts ∧ (starts = true ↔ others ⊆ steps) := by
  rw [startsWith, lists.range.climbs.subset_iff_suffix otherLists.range.climbs]
  split
  · rename_i shorter
    rw [lists.len, otherLists.len] at shorter
    exact ⟨false, rfl, iff_of_false Bool.false_ne_true fun isSuffix =>
      Nat.not_lt.mpr isSuffix.length_le shorter⟩
  · rename_i longer
    rw [lists.len, otherLists.len] at longer
    obtain ⟨own, isOwn, ownWords⟩ := lists.range.rows
    obtain ⟨theirs, isTheirs, theirWords⟩ := otherLists.range.rows
    rw [isOwn, Run.bind_ok, isTheirs, Run.bind_ok]
    refine ⟨_, rfl, (zip_all_iff ownWords theirWords ?_).trans reverse_prefix⟩
    rw [length_reverse, length_reverse]
    exact Nat.not_lt.mp longer

/-- A complete chain is the one that its last row names. -/
theorem range_of_complete (complete : rows.isCompleteChain image = .ok true)
    (present : rows.isEmpty = false) :
    ∃ last, rows.get image (rows.len - 1) = .ok (some last) ∧
      image.routeCommitRangeForConflict last = .ok (some rows.range) := by
  rw [isCompleteChain, present, if_neg Bool.false_ne_true] at complete
  obtain ⟨found, isFound, complete⟩ := Run.of_bind complete
  split at complete
  · cases complete
  · rename_i last
    obtain ⟨named, isNamed, complete⟩ := Run.of_bind complete
    split at complete
    · cases complete
    · rename_i range
      have isMatch := Except.ok.inj complete
      rw [matchesRange, present, if_neg Bool.false_ne_true] at isMatch
      split at isMatch
      · cases isMatch
      · exact ⟨last, isFound, (of_decide_eq_true isMatch).symm ▸ isNamed⟩

/-- It lists the decisions from its last one up to a root. -/
theorem lists_of_complete {image : SealedColumns}
    (complete : rows.isCompleteChain image = .ok true) : ∃ steps, rows.Lists image steps := by
  cases present : rows.isEmpty with
  | true =>
    refine ⟨[], ⟨trivial, nofun, [], ?_, rfl⟩, if_pos present⟩
    exact if_pos present
  | false =>
    obtain ⟨last, _, isNamed⟩ := range_of_complete complete present
    rcases image.rangeForConflict last with ⟨isNone, _⟩ |
      ⟨decision, range, steps, _, isRange, _, lists, isLength⟩
    · cases isNone.symm.trans isNamed
    · cases Except.ok.inj (isRange.symm.trans isNamed)
      refine ⟨decision :: steps, lists, ?_⟩
      rw [len, present, if_neg Bool.false_ne_true, isLength]
      rfl

/-- The place of a route in a chain holds its decision, when the chain has one. -/
theorem Lists.armForScope_eq {image : SealedColumns} (lists : rows.Lists image steps)
    (scope : ScopeId) (small : scope.ordinal < ScopeId.localCapacity) :
    ∃ found, rows.armForScope image scope = .ok found ∧
      ∀ arm, found = some arm ↔ ⟨scope, arm⟩ ∈ steps := by
  rw [armForScope]
  split
  · rename_i nothing
    refine ⟨none, rfl, fun arm => iff_of_false nofun fun mem => ?_⟩
    rcases nothing with isEmpty | notRoute
    · have isNil := length_eq_zero_iff.mp (lists.len.symm.trans (if_pos isEmpty))
      rw [isNil] at mem
      cases mem
    · exact lists.range.slotted _ mem (if_neg notRoute)
  · rename_i something
    obtain ⟨present, isRoute⟩ := not_or.mp something
    obtain ⟨conflict, isConflict, isDecision⟩ :=
      routeArm_eq (not_not.mp isRoute) small (Nat.zero_le 1)
    rw [isConflict, Run.bind_ok]
    rcases image.rangeForConflict conflict with ⟨isNone, noSlot⟩ |
      ⟨decision, range, above, isOther, isRange, _, otherLists, isLength⟩
    · rw [isNone, Run.bind_ok]
      refine ⟨none, rfl, fun arm => iff_of_false nofun fun mem => ?_⟩
      exact lists.range.slotted _ mem (noSlot ⟨scope, 0⟩ isDecision)
    · cases isDecision.symm.trans isOther
      obtain ⟨found, isFound, isRow⟩ := lists.get_eq above.length
      have atPlace : ∀ arm, ⟨scope, arm⟩ ∈ steps →
          steps.reverse[above.length]? = some ⟨scope, arm⟩ :=
        fun arm mem => lists.range.climbs.getElem?_reverse otherLists.climbs mem rfl
      rw [isRange, Run.bind_ok]
      dsimp only
      rw [if_neg (by intro isZero; rw [isZero] at isLength; cases isLength), isLength,
        Nat.add_sub_cancel, isFound, Run.bind_ok]
      cases found with
      | none =>
        refine ⟨none, rfl, fun arm => iff_of_false nofun fun mem => ?_⟩
        rw [atPlace arm mem] at isRow
        cases isRow
      | some row =>
        obtain ⟨decision, isPlaced, isRow⟩ := Option.map_eq_some_iff.mp isRow.symm
        dsimp only
        rw [← isRow]
        refine ⟨_, rfl, fun arm => ⟨fun isArm => ?_, fun mem => ?_⟩⟩
        · split at isArm
          · rename_i sameScope
            rw [← Option.some.inj isArm, ← sameScope]
            exact mem_reverse.mp (mem_of_getElem? isPlaced)
          · cases isArm
        · rw [Option.some.inj (isPlaced.symm.trans (atPlace arm mem)), if_pos rfl]

end SelectedRouteCommitRowsRef

/-- Chains of a published image. A complete chain has an arm for a route exactly when the decision
is one of its decisions. Two complete chains of one lane are merged, the second one by any word for
its last decision, exactly when the decisions of one contain those of the other, and the longer one
is kept. -/
theorem complete_chains_merge (image : SealedColumns) (rows : SelectedRouteCommitRows)
    (complete : rows.routes.isCompleteChain image = .ok true) :
    (∀ scope, scope.ordinal < ScopeId.localCapacity →
      ∃ found, rows.routes.armForScope image scope = .ok found ∧
        ∀ arm, found = some arm ↔ ⟨scope, arm⟩ ∈ rows.routes.decisions image) ∧
    ∀ (incoming : SelectedRouteCommitRowsRef) (stored last : PackedEventConflict),
      incoming.isCompleteChain image = .ok true →
      incoming.get image (incoming.len - 1) = .ok (some stored) →
      last.toConflict = stored.toConflict →
      incoming.len ≤ rows.maxLen.toNat →
      (rows.routes.isEmpty = true ∨ rows.routes.lane = incoming.lane) →
      ∃ merged, rows.mergeChain image incoming.lane last = .ok merged ∧
        ((∃ next, merged = .ok next) ↔ rows.routes.decisions image ⊆ incoming.decisions image ∨
            incoming.decisions image ⊆ rows.routes.decisions image) ∧
        (incoming.decisions image ⊆ rows.routes.decisions image → merged = .ok rows) ∧
        (¬ incoming.decisions image ⊆ rows.routes.decisions image →
          rows.routes.decisions image ⊆ incoming.decisions image →
          merged = .ok { rows with routes := incoming }) := by
  obtain ⟨steps, lists⟩ := SelectedRouteCommitRowsRef.lists_of_complete complete
  refine ⟨fun scope small => ?_, fun incoming stored last isComplete isLast same fits oneLane => ?_⟩
  · obtain ⟨found, isFound, isArm⟩ := lists.armForScope_eq scope small
    refine ⟨found, isFound, fun arm => ?_⟩
    rw [lists.decisions_eq, mem_reverse, isArm]
  · obtain ⟨others, otherLists⟩ := SelectedRouteCommitRowsRef.lists_of_complete isComplete
    have present : incoming.isEmpty = false := by
      cases present : incoming.isEmpty with
      | false => rfl
      | true =>
        rw [SelectedRouteCommitRowsRef.get, SelectedRouteCommitRowsRef.len, if_pos present,
          if_pos (Nat.zero_le _)] at isLast
        cases isLast
    obtain ⟨other, isOther, isRange⟩ :=
      SelectedRouteCommitRowsRef.range_of_complete isComplete present
    cases Except.ok.inj (isLast.symm.trans isOther)
    have isIncoming : SelectedRouteCommitRowsRef.fromResidentRangeForLane incoming.range
        incoming.lane = incoming := if_neg (ne_true_of_eq_false present)
    have isLen : incoming.len = incoming.range.len.toNat :=
      if_neg (ne_true_of_eq_false present)
    rw [RouteColumns.routeCommitRangeForConflict, ← same] at isRange
    rw [SelectedRouteCommitRows.mergeChain, RouteColumns.routeCommitRangeForConflict, isRange,
      Run.bind_ok]
    dsimp only
    rw [if_neg (by rw [UInt16.lt_iff_toNat_lt, ← isLen]; exact Nat.not_lt.mpr fits), isIncoming,
      lists.decisions_eq, otherLists.decisions_eq]
    simp only [reverse_subset, subset_reverse]
    cases isEmpty : rows.routes.isEmpty with
    | true =>
      have isNil := length_eq_zero_iff.mp (lists.len.symm.trans (if_pos isEmpty))
      have more : ¬ others ⊆ steps := fun contained => by
        rw [isNil, subset_nil] at contained
        have isZero : incoming.range.len.toNat = 0 := by
          rw [← isLen, otherLists.len, contained, length_nil]
        exact of_decide_eq_false present (.inr (UInt16.toNat.inj isZero))
      rw [if_pos rfl, isNil]
      exact ⟨_, rfl, iff_of_true ⟨_, rfl⟩ (.inl (nil_subset _)), fun contained =>
        absurd (isNil ▸ contained) more, fun _ _ => rfl⟩
    | false =>
      obtain ⟨starts, isStart, contains⟩ := lists.startsWith_eq otherLists
      obtain ⟨isPart, isPartOk, contained⟩ := otherLists.startsWith_eq lists
      have sameLane : rows.routes.selectedLane = some incoming.lane := by
        rw [SelectedRouteCommitRowsRef.selectedLane, isEmpty, if_neg Bool.false_ne_true,
          oneLane.resolve_left (ne_true_of_eq_false isEmpty)]
      rw [if_neg Bool.false_ne_true, if_neg (not_not_intro sameLane), isStart, Run.bind_ok,
        ← contains, ← contained]
      cases starts with
      | true => exact ⟨_, rfl, iff_of_true ⟨_, rfl⟩ (.inr rfl), fun _ => rfl,
        fun no => absurd rfl no⟩
      | false =>
        rw [if_neg Bool.false_ne_true, isPartOk, Run.bind_ok]
        cases isPart with
        | true => exact ⟨_, rfl, iff_of_true ⟨_, rfl⟩ (.inl rfl), nofun, fun _ _ => rfl⟩
        | false =>
          refine ⟨_, rfl, iff_of_false ?_ ?_, nofun, fun _ => nofun⟩
          · rintro ⟨next, isNext⟩
            cases isNext
          · rintro (isPart | isPart) <;> cases isPart

/-- An outer route, and an inner route in its left arm. -/
def nestedRoutes : SealedColumns where
  routeScopes := [0, 1]
  routeIndex := [0, 1]
  routeScopeConflicts := [.none, ⟨0, by decide⟩]
  routeCommitRanges := [⟨0, 1⟩, ⟨1, 1⟩, ⟨2, 2⟩, ⟨4, 2⟩]
  routeCommitRows := [⟨0, by decide⟩, ⟨1, by decide⟩, ⟨0, by decide⟩, ⟨2, by decide⟩,
    ⟨0, by decide⟩, ⟨3, by decide⟩]
  maxRouteCommitCount := 2
  indexed := by decide
  exact := by decide
  chained := by decide

/-- The chain of the outer route grows by the right arm of the inner one, which is named by a word
with the mark for another entry. -/
theorem complete_chains_merge_nested :
    SelectedRouteCommitRows.mergeChain ⟨⟨⟨0, 1⟩, 5⟩, 2⟩ nestedRoutes 5 ⟨2 ^ 14 + 3, by decide⟩ =
      .ok (.ok ⟨⟨⟨4, 2⟩, 5⟩, 2⟩) := by
  obtain ⟨_, merges⟩ := complete_chains_merge nestedRoutes ⟨⟨⟨0, 1⟩, 5⟩, 2⟩ (by decide)
  obtain ⟨merged, isMerged, _, _, isLonger⟩ := merges ⟨⟨4, 2⟩, 5⟩ ⟨3, by decide⟩
    ⟨2 ^ 14 + 3, by decide⟩ (by decide) (by decide) (by decide) (by decide) (.inr rfl)
  rw [isMerged, isLonger (by decide) (by decide)]

end Hibana
