/-
This file models the source arena, `global/const_dsl/{source_arena,scope,eff_list}.rs`.

Lowering turns a source tree into a flat list of events and a list of scope
markers ordered by event offset. A route, a parallel and a roll each leave an
enter marker, markers at their inner boundary and an exit marker; a marker is
inserted from the back, so scopes that start at one offset stay in preorder.
-/

import HibanaChoreography.Library.Run
import HibanaChoreography.Source.Tree

namespace Hibana

open Outcome

/-! ### Events -/

/-- The payload of a lowered event: a wire schema, or an endpoint named by its role. -/
inductive EventPayload where
  | wire (schema : UInt32)
  | endpoint (role : UInt8)
  deriving DecidableEq, Repr

/-- A lowered event. -/
structure EffAtom where
  sender : UInt8
  receiver : UInt8
  label : UInt8
  payload : EventPayload
  lane : UInt8
  deriving DecidableEq, Repr

/-! ### Scopes -/

inductive ScopeKind where
  | route
  | roll
  | parallel
  deriving DecidableEq, Repr

/-- The identity of a scope: its kind and its preorder ordinal, below `2 ^ 13`. -/
structure ScopeId where
  kind : ScopeKind
  ordinal : Nat
  deriving DecidableEq, Repr

namespace ScopeId

def localCapacity : Nat := 8192

def new (kind : ScopeKind) (ordinal : Nat) : Run ScopeId :=
  if localCapacity ≤ ordinal then .error (.panic "scope ordinal overflow")
  else .ok ⟨kind, ordinal⟩

end ScopeId

inductive ScopeEntry where
  | route (rightEnd : Nat)
  | routeArmContinuation
  | parallel (split : Nat)
  | roll
  deriving DecidableEq, Repr

inductive ScopeEvent where
  | enter (entry : ScopeEntry)
  | split
  | exit
  deriving DecidableEq, Repr

namespace ScopeEvent

def routeEnter (rightEnd : Nat) : Run ScopeEvent :=
  if 65535 < rightEnd then .error (.panic "route end offset overflow")
  else .ok (.enter (.route rightEnd))

def parallelEnter (split : Nat) : Run ScopeEvent :=
  if 65535 < split then .error (.panic "parallel split offset overflow")
  else .ok (.enter (.parallel split))

def isEnter : ScopeEvent → Bool
  | enter _ => true
  | split | exit => false

/-- The entry of a scope, and not the continuation of a route in its right arm. -/
def isPrimaryEnter : ScopeEvent → Bool
  | enter (.route _) | enter (.parallel _) | enter .roll => true
  | enter .routeArmContinuation | split | exit => false

def routeEnd : ScopeEvent → Option Nat
  | enter (.route rightEnd) => some rightEnd
  | _ => none

def parallelSplit : ScopeEvent → Option Nat
  | enter (.parallel boundary) => some boundary
  | _ => none

/-- The entry is one of a scope of this kind. -/
def matchesKind : ScopeEvent → ScopeKind → Bool
  | enter (.route _), .route | enter .routeArmContinuation, .route => true
  | enter (.parallel _), .parallel => true
  | enter .roll, .roll => true
  | _, _ => false

end ScopeEvent

inductive ReentryMark where
  | singlePass
  | reentrant
  deriving DecidableEq, Repr

structure ScopeMarker where
  offset : Nat
  segmentEnd : Nat
  scopeId : ScopeId
  event : ScopeEvent
  reentry : ReentryMark
  deriving DecidableEq, Repr

/-- A marker, after the checks on its offsets and on the agreement of its entry with its scope. -/
def ScopeMarker.new (offset segmentEnd : Nat) (scopeId : ScopeId) (event : ScopeEvent)
    (reentry : ReentryMark) : Run ScopeMarker :=
  if 65535 < offset ∨ 65535 < segmentEnd then .error (.panic "scope marker offset overflow")
  else if event.isEnter then
    if segmentEnd ≤ offset then .error (.panic "scope segment must be non-empty")
    else if ¬ event.matchesKind scopeId.kind then .error (.panic "scope entry kind mismatch")
    else if event.routeEnd.any (· ≤ segmentEnd) then
      .error (.panic "route right arm must be non-empty")
    else if event.parallelSplit.any fun split => split ≤ offset ∨ segmentEnd ≤ split then
      .error (.panic "parallel arms must be non-empty")
    else .ok ⟨offset, segmentEnd, scopeId, event, reentry⟩
  else if segmentEnd ≠ offset then
    .error (.panic "scope boundary marker cannot carry a segment")
  else if event = .split ∧ scopeId.kind ≠ .parallel then
    .error (.panic "split marker requires a parallel scope")
  else .ok ⟨offset, segmentEnd, scopeId, event, reentry⟩

/-- A resolver of a route. -/
structure RouteResolverMarker where
  scope : ScopeId
  resolverId : UInt16
  deriving DecidableEq, Repr

/-! ### The arena -/

/-- The arena of one source: its events, its scope markers and its resolvers, each in a partition
of its own with a fixed capacity, inside the capacity of the whole. -/
structure EffList where
  events : List EffAtom
  markers : List ScopeMarker
  resolvers : List RouteResolverMarker
  capacity : Nat
  eventCapacity : Nat
  markerCapacity : Nat
  resolverCapacity : Nat
  deriving DecidableEq, Repr

namespace EffList

def newPartitioned (capacity eventCount scopeMarkerCount resolverCount : Nat) : Run EffList :=
  if capacity < eventCount + scopeMarkerCount + resolverCount then
    .error (.panic "source arena partition exceeds bucket")
  else
    .ok ⟨[], [], [], capacity, eventCount, scopeMarkerCount, resolverCount⟩

def len (eff : EffList) : Nat := eff.events.length

def atomAt (eff : EffList) (offset : Nat) : Run EffAtom :=
  match eff.events[offset]? with
  | some atom => .ok atom
  | none => .error (.panic "EffList atom offset out of bounds")

def replaceAtom (eff : EffList) (offset : Nat) (atom : EffAtom) : Run EffList :=
  if eff.len ≤ offset then .error (.panic "EffList atom offset out of bounds")
  else .ok { eff with events := eff.events.set offset atom }

def pushEvent (eff : EffList) (atom : EffAtom) : Run EffList :=
  if eff.eventCapacity ≤ eff.len then .error (.panic "EffList capacity exceeded")
  else .ok { eff with events := eff.events ++ [atom] }

/-- A new marker moves in front of one that is further on, and an entry moves in front of a split
and of a later entry at its own offset. -/
def passes (marker previous : ScopeMarker) : Bool :=
  decide (marker.offset < previous.offset) ||
    (marker.event.isEnter && decide (previous.offset = marker.offset) &&
      (decide (previous.event = .split) ||
        (previous.event.isEnter &&
          decide (marker.scopeId.ordinal < previous.scopeId.ordinal))))

/-- The markers from the last to the first, with a new one in its place. -/
def placeMarker (marker : ScopeMarker) : List ScopeMarker → List ScopeMarker
  | [] => [marker]
  | previous :: earlier =>
    if passes marker previous then previous :: placeMarker marker earlier
    else marker :: previous :: earlier

def insertScopeMarker (eff : EffList) (marker : ScopeMarker) : Run EffList :=
  if eff.markerCapacity ≤ eff.markers.length then
    .error (.panic "EffList scope marker capacity exceeded")
  else .ok { eff with markers := (placeMarker marker eff.markers.reverse).reverse }

def pushRouteScope (eff : EffList) (scope : ScopeId) (leftStart rightStart rightEnd : Nat)
    (reentry : ReentryMark) : Run EffList :=
  if scope.kind ≠ .route ∨ rightStart ≤ leftStart ∨ rightEnd ≤ rightStart ∨ eff.len < rightEnd then
    .error (.panic "route scope requires two contiguous non-empty arms")
  else do
    let eff ← eff.insertScopeMarker
      (← ScopeMarker.new leftStart rightStart scope (← ScopeEvent.routeEnter rightEnd) reentry)
    let eff ← eff.insertScopeMarker
      (← ScopeMarker.new rightStart rightStart scope .exit .singlePass)
    let eff ← eff.insertScopeMarker
      (← ScopeMarker.new rightStart rightEnd scope (.enter .routeArmContinuation) reentry)
    eff.insertScopeMarker (← ScopeMarker.new rightEnd rightEnd scope .exit .singlePass)

def pushParallelScope (eff : EffList) (scope : ScopeId) (start split stop : Nat) : Run EffList :=
  if scope.kind ≠ .parallel ∨ split ≤ start ∨ stop ≤ split ∨ eff.len < stop then
    .error (.panic "parallel scope requires two contiguous non-empty arms")
  else do
    let eff ← eff.insertScopeMarker
      (← ScopeMarker.new start stop scope (← ScopeEvent.parallelEnter split) .singlePass)
    let eff ← eff.insertScopeMarker (← ScopeMarker.new split split scope .split .singlePass)
    eff.insertScopeMarker (← ScopeMarker.new stop stop scope .exit .singlePass)

def pushRollScope (eff : EffList) (scope : ScopeId) (start stop : Nat) : Run EffList :=
  if scope.kind ≠ .roll ∨ stop ≤ start ∨ eff.len < stop then
    .error (.panic "roll scope requires a non-empty body")
  else do
    let eff ← eff.insertScopeMarker
      (← ScopeMarker.new start stop scope (.enter .roll) .singlePass)
    eff.insertScopeMarker (← ScopeMarker.new stop stop scope .exit .singlePass)

def pushRouteResolver (eff : EffList) (scope : ScopeId) (resolverId : UInt16) : Run EffList :=
  if scope.kind ≠ .route then .error (.panic "EffList route resolver scope")
  else if eff.resolvers.any (·.scope = scope) then
    .error (.panic "duplicate route resolver scope")
  else if eff.resolverCapacity ≤ eff.resolvers.length then
    .error (.panic "EffList resolver marker capacity exceeded")
  else .ok { eff with resolvers := eff.resolvers ++ [⟨scope, resolverId⟩] }

def resolverForScope (eff : EffList) (scope : ScopeId) : Run (Option UInt16) :=
  if scope.kind ≠ .route then .error .invariant
  else .ok ((eff.resolvers.find? (·.scope = scope)).map (·.resolverId))

end EffList

end Hibana
