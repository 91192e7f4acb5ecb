/-
This file models the check of one route on the lowered source,
`global/compiled/lowering/seal.rs` with `global/const_dsl/{scope_ranges,
endpoint_controller,endpoint_selectors}.rs`.

A route needs one role that sends first in both of its arms. The arms are event
ranges, and the events that may come first in a range are found from the scope
markers alone: a route that starts the range, else a parallel that starts it,
else the first event of the range.
-/

import HibanaChoreography.Library.Search
import HibanaChoreography.Lowering.Emit

namespace Hibana

open Outcome

/-! ### Marker ranges -/

namespace ScopeMarkers

/-- `ScopeMarkerView::at`. -/
def markerAt (markers : List ScopeMarker) (index : Nat) : Run ScopeMarker :=
  match markers[index]? with
  | some marker => .ok marker
  | none => .error (.panic "scope marker offset out of bounds")

/-- The first marker from a floor on that lies at an offset or behind it. -/
def offsetLowerBound (markers : List ScopeMarker) (offset floor : Nat) : Run Nat :=
  if markers.length < floor then .error .invariant
  else if floor = markers.length then .ok floor
  else do
    if offset ≤ (← markerAt markers floor).offset then return floor
    else
      lowerBound (fun middle => return decide ((← markerAt markers middle).offset < offset))
        markers.length (floor + 1) markers.length

/-- The ranges of the two arms of a scope. -/
structure ArmRanges where
  leftStart : Nat
  leftEnd : Nat
  rightStart : Nat
  rightEnd : Nat
  deriving DecidableEq, Repr

/-- `closed_route_arm_ranges_from_first_enter`, for the marker at an index. -/
def closedRouteArmRanges (first : ScopeMarker) : Option ArmRanges :=
  if ¬ first.event.isPrimaryEnter ∨ first.scopeId.kind ≠ .route ∨
      first.segmentEnd ≤ first.offset then none
  else
    match first.event.routeEnd with
    | none => none
    | some rightEnd =>
      if rightEnd ≤ first.segmentEnd then none
      else some ⟨first.offset, first.segmentEnd, first.segmentEnd, rightEnd⟩

def routeArmRangesFromFirstEnter (markers : List ScopeMarker) (enter : Nat) : Run ArmRanges :=
  match markers[enter]?.bind closedRouteArmRanges with
  | some ranges => .ok ranges
  | none => .error (.panic "route requires exactly 2 contiguous non-empty closed arms")

/-- The arms of the parallel that a marker enters. -/
def parallelArmRanges (marker : ScopeMarker) : Option ArmRanges :=
  if ¬ marker.event.isPrimaryEnter ∨ marker.scopeId.kind ≠ .parallel then none
  else
    match marker.event.parallelSplit with
    | none => none
    | some split =>
      if split ≤ marker.offset ∨ marker.segmentEnd ≤ split then none
      else some ⟨marker.offset, split, split, marker.segmentEnd⟩

def parallelArmRangesFromEnter (markers : List ScopeMarker) (enter : Nat) : Option ArmRanges :=
  markers[enter]?.bind parallelArmRanges

/-- Scan the markers at an offset for one that fits; `index` is the index of the first one. -/
def scan (fits : ScopeMarker → Bool) (start : Nat) : List ScopeMarker → Nat → Option Nat
  | [], _ => none
  | marker :: rest, index =>
    if start < marker.offset then none
    else if marker.offset = start ∧ fits marker then some index
    else scan fits start rest (index + 1)

/-- The first marker at an offset, from a floor on, that fits. -/
def enterAt (fits : ScopeMarker → Bool) (markers : List ScopeMarker) (start floor : Nat) :
    Run (Option Nat) := do
  let low ← offsetLowerBound markers start floor
  return scan fits start (markers.drop low) low

def routeExitsWithin (stop : Nat) (marker : ScopeMarker) : Bool :=
  (closedRouteArmRanges marker).any (·.rightEnd ≤ stop)

def parallelExitsWithin (stop : Nat) (marker : ScopeMarker) : Bool :=
  (parallelArmRanges marker).any (·.rightEnd ≤ stop)

def routeEnterAt (markers : List ScopeMarker) (start stop floor : Nat) : Run (Option Nat) :=
  enterAt (fun marker => marker.event.isPrimaryEnter && decide (marker.scopeId.kind = .route) &&
    routeExitsWithin stop marker) markers start floor

def parallelEnterAt (markers : List ScopeMarker) (start stop floor : Nat) : Run (Option Nat) :=
  enterAt (fun marker => marker.event.isPrimaryEnter && decide (marker.scopeId.kind = .parallel) &&
    parallelExitsWithin stop marker) markers start floor

end ScopeMarkers

/-! ### The first visible events of a range -/

open ScopeMarkers

/-- What a walk over the first visible events of a range computes. The three walks of the source
differ in these. -/
structure VisibleWalk (β : Type) where
  /-- The value of a range without events. -/
  absent : β
  /-- A range that the walk gives up before it looks at its markers. -/
  skip : Nat → Nat → Bool
  /-- The marker floor of the arms, from the index of the entry. -/
  childFloor : Nat → Nat
  /-- The value of a scope from the values of its arms. -/
  combine : Run β → Run β → Run β
  /-- The value of a parallel without two arms. -/
  unclosed : Run β
  /-- The value of an event that comes first. -/
  leaf : Nat → Run β

/-- Walk over the first visible events of a range: a route at its start, else a parallel at its
start, else its first event. -/
def VisibleWalk.walk {β : Type} (visit : VisibleWalk β) (eff : EffList) :
    Nat → Nat → Nat → Nat → Run β
  | 0, _, _, _ => .error .fuel
  | fuel + 1, start, stop, floor =>
    if stop ≤ start ∨ eff.len ≤ start then .ok visit.absent
    else if visit.skip start stop then .ok visit.absent
    else do
      match ← routeEnterAt eff.markers start stop floor with
      | some enter =>
        let ranges ← routeArmRangesFromFirstEnter eff.markers enter
        visit.combine
          (visit.walk eff fuel ranges.leftStart ranges.leftEnd (visit.childFloor enter))
          (visit.walk eff fuel ranges.rightStart ranges.rightEnd (visit.childFloor enter))
      | none =>
        match ← parallelEnterAt eff.markers start stop floor with
        | some enter =>
          match parallelArmRangesFromEnter eff.markers enter with
          | some ranges =>
            visit.combine
              (visit.walk eff fuel ranges.leftStart ranges.leftEnd (visit.childFloor enter))
              (visit.walk eff fuel ranges.rightStart ranges.rightEnd (visit.childFloor enter))
          | none => visit.unclosed
        | none => visit.leaf start

/-- The walk with enough fuel: an arm is shorter than its range. -/
def VisibleWalk.run {β : Type} (visit : VisibleWalk β) (eff : EffList) (start stop floor : Nat) :
    Run β :=
  visit.walk eff (stop - start + 1) start stop floor

/-! ### The controller -/

inductive FirstVisibleController where
  | absent
  | unique (role : UInt8)
  | ambiguous
  deriving DecidableEq, Repr

namespace FirstVisibleController

def merge : FirstVisibleController → FirstVisibleController → FirstVisibleController
  | absent, candidate => candidate
  | candidate, absent => candidate
  | unique left, unique right => if left = right then unique left else ambiguous
  | ambiguous, _ => ambiguous
  | _, ambiguous => ambiguous

def role? : FirstVisibleController → Option UInt8
  | unique role => some role
  | absent | ambiguous => none

end FirstVisibleController

def controllerWalk (eff : EffList) : VisibleWalk FirstVisibleController where
  absent := .absent
  skip := fun _ _ => false
  childFloor := fun _ => 0
  combine := fun left right => return (← left).merge (← right)
  unclosed := .error .invariant
  leaf := fun start => return .unique (← eff.atomAt start).sender

def firstVisibleController (eff : EffList) (start stop : Nat) : Run FirstVisibleController :=
  (controllerWalk eff).run eff start stop 0

/-! ### Selectors -/

def EventPayload.selectorBits : EventPayload → Nat
  | wire schema => schema.toNat
  | endpoint role => 1 <<< 32 ||| role.toNat

/-- A selector, packed in 64 bits with its kind in the top byte. -/
structure EndpointSelector where
  bits : Nat
  deriving DecidableEq, Repr

namespace EndpointSelector

def outboundKind : Nat := 0

def inboundEvidenceKind : Nat := 1

def kindShift : Nat := 56

def compactEventIdentityCapacity : Nat := 65535

def outbound (atom : EffAtom) : EndpointSelector :=
  ⟨outboundKind <<< kindShift ||| atom.sender.toNat <<< 48 ||| atom.label.toNat <<< 40 |||
    atom.payload.selectorBits⟩

def inboundEvidence (event : Nat) : Option EndpointSelector :=
  if compactEventIdentityCapacity ≤ event then none
  else some ⟨inboundEvidenceKind <<< kindShift ||| event⟩

def isInboundEvidence (selector : EndpointSelector) : Bool :=
  selector.bits >>> kindShift = inboundEvidenceKind

def isOutbound (selector : EndpointSelector) : Bool :=
  selector.bits >>> kindShift = outboundKind

/-- The event of inbound evidence. -/
def event (selector : EndpointSelector) : Nat := selector.bits &&& (1 <<< kindShift - 1)

end EndpointSelector

def atomMatchesSelector (event : Nat) (atom : EffAtom) (target : EndpointSelector) : Bool :=
  if target.isOutbound then EndpointSelector.outbound atom = target
  else EndpointSelector.inboundEvidence event = some target

def matchesWalk (eff : EffList) (target : EndpointSelector) : VisibleWalk Bool where
  absent := false
  -- Inbound evidence names its event, which a range either holds or not.
  skip := fun start stop =>
    target.isInboundEvidence && (decide (target.event < start) || decide (stop ≤ target.event))
  childFloor := fun enter => enter + 1
  combine := Run.either
  unclosed := .ok true
  leaf := fun start => return atomMatchesSelector start (← eff.atomAt start) target

def firstVisibleEndpointMatches (eff : EffList) (start stop : Nat) (target : EndpointSelector)
    (floor : Nat) : Run Bool :=
  (matchesWalk eff target).run eff start stop floor

def firstVisibleEndpointMatchesAtom (eff : EffList) (start stop event : Nat) (atom : EffAtom)
    (floor : Nat) : Run Bool :=
  Run.either
    (firstVisibleEndpointMatches eff start stop (EndpointSelector.outbound atom) floor)
    (match EndpointSelector.inboundEvidence event with
      | some selector => firstVisibleEndpointMatches eff start stop selector floor
      | none => .ok false)

def conflictsWalk (eff : EffList) (rightStart rightEnd rightFloor : Nat) : VisibleWalk Bool where
  absent := false
  skip := fun _ _ => false
  childFloor := fun enter => enter + 1
  combine := Run.either
  unclosed := .ok true
  leaf := fun start => do
    firstVisibleEndpointMatchesAtom eff rightStart rightEnd start (← eff.atomAt start) rightFloor

def firstVisibleEndpointSelectorConflictsFromMarkers (eff : EffList)
    (leftStart leftEnd rightStart rightEnd leftFloor rightFloor : Nat) : Run Bool :=
  (conflictsWalk eff rightStart rightEnd rightFloor).run eff leftStart leftEnd leftFloor

/-! ### The check of a route -/

/-- The errors of `ProgramSourceError` that the check of a route reports. -/
inductive RouteShapeError where
  | routeControllerMismatch
  | projectionRouteUnprojectable
  deriving DecidableEq, Repr

/-- The controller of the route whose entry is at an index of the markers. -/
def routeControllerAndSelectors (eff : EffList) (routeEnter : Nat) :
    Checked RouteShapeError UInt8 := do
  let ranges ← (routeArmRangesFromFirstEnter eff.markers routeEnter).checked
  let marker ← (markerAt eff.markers routeEnter).checked
  let resolver ← (eff.resolverForScope marker.scopeId).checked
  let left ← (firstVisibleController eff ranges.leftStart ranges.leftEnd).checked
  let right ← (firstVisibleController eff ranges.rightStart ranges.rightEnd).checked
  match (left.merge right).role? with
  | none => refuse .routeControllerMismatch
  | some controller =>
    if resolver.isNone then
      let conflicts ← (firstVisibleEndpointSelectorConflictsFromMarkers eff ranges.leftStart
        ranges.leftEnd ranges.rightStart ranges.rightEnd (routeEnter + 1) (routeEnter + 1)).checked
      if conflicts then refuse .projectionRouteUnprojectable else return controller
    else return controller

end Hibana
