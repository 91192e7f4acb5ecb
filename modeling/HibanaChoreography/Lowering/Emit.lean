/-
This file models the lowering of a source tree, `SourceLowering::emit` in `g/source.rs`,
and the row counts of the typed terms, `g/terms.rs`.

The walk pushes the events in source order, numbers the scopes in preorder, and
leaves the markers of a scope when its children are done. Parallel arms are
coloured when they meet.
-/

import HibanaChoreography.Lowering.LaneMatching

namespace Hibana

open Outcome

namespace Source

/-- The scope markers of a source. -/
def scopeMarkerCount : Source → Nat
  | send _ => 0
  | seq left right => left.scopeMarkerCount + right.scopeMarkerCount
  | route left right _ => left.scopeMarkerCount + right.scopeMarkerCount + 4
  | par left right => left.scopeMarkerCount + right.scopeMarkerCount + 3
  | roll body => body.scopeMarkerCount + 2

/-- The resolver markers of a source. -/
def resolverMarkerCount : Source → Nat
  | send _ => 0
  | seq left right | par left right | route left right none =>
    left.resolverMarkerCount + right.resolverMarkerCount
  | route left right (some _) => left.resolverMarkerCount + right.resolverMarkerCount + 1
  | roll body => body.resolverMarkerCount

end Source

/-- The state of lowering. -/
structure SourceLowering where
  eff : EffList
  nextScopeOrdinal : Nat
  deriving DecidableEq, Repr

namespace SourceLowering

def allocateScope (lowering : SourceLowering) (kind : ScopeKind) : Run (ScopeId × SourceLowering) :=
  if ScopeId.localCapacity ≤ lowering.nextScopeOrdinal then
    .error (.panic "structured scope domain exceeded")
  else do
    let scope ← ScopeId.new kind lowering.nextScopeOrdinal
    return (scope, { lowering with nextScopeOrdinal := lowering.nextScopeOrdinal + 1 })

/-- The payload of a lowered event. -/
def lowerPayload (payload : Payload) : Run EventPayload :=
  match payload with
  | .wire schema => .ok (.wire schema)
  | .endpoint key =>
    if key.component ≠ 0 then
      .error (.panic "owned endpoint is outside the composed choreography")
    else .ok (.endpoint key.role)

/-- Bind the resolver of a route, if it has one. -/
def bindResolver (eff : EffList) (scope : ScopeId) : Option UInt16 → Run EffList
  | some resolverId => eff.pushRouteResolver scope resolverId
  | none => .ok eff

/-- Lower a subtree; the result is the span of its lanes. -/
def emit (actors : Option ActorImage) (source : Source) (reentry : ReentryMark)
    (lowering : SourceLowering) : Run (Nat × SourceLowering) :=
  match source with
  | .send message =>
    if message.fromKey.component ≠ 0 ∨ message.toKey.component ≠ 0 then
      .error (.panic "source component is outside the composed choreography")
    else do
      let payload ← lowerPayload message.payload
      let eff ← lowering.eff.pushEvent
        ⟨message.fromKey.role, message.toKey.role, message.label, payload, 0⟩
      return (1, { lowering with eff := eff })
  | .seq left right => do
    let (leftSpan, lowering) ← emit actors left reentry lowering
    let (rightSpan, lowering) ← emit actors right reentry lowering
    return (max leftSpan rightSpan, lowering)
  | .route left right resolver => do
    let (scope, lowering) ← lowering.allocateScope .route
    let leftStart := lowering.eff.len
    let (leftSpan, lowering) ← emit actors left reentry lowering
    let rightStart := lowering.eff.len
    let (rightSpan, lowering) ← emit actors right reentry lowering
    let rightEnd := lowering.eff.len
    let eff ← lowering.eff.pushRouteScope scope leftStart rightStart rightEnd reentry
    let eff ← bindResolver eff scope resolver
    return (max leftSpan rightSpan, { lowering with eff := eff })
  | .par left right => do
    let (scope, lowering) ← lowering.allocateScope .parallel
    let leftStart := lowering.eff.len
    let (leftSpan, lowering) ← emit actors left reentry lowering
    let rightStart := lowering.eff.len
    let (rightSpan, lowering) ← emit actors right reentry lowering
    let rightEnd := lowering.eff.len
    let eff ← lowering.eff.pushParallelScope scope leftStart rightStart rightEnd
    let (span, eff) ←
      mergeParallelLanes eff actors leftStart rightStart rightEnd leftSpan rightSpan
    return (span, { lowering with eff := eff })
  | .roll body => do
    let (scope, lowering) ← lowering.allocateScope .roll
    let start := lowering.eff.len
    let (span, lowering) ← emit actors body .reentrant lowering
    let stop := lowering.eff.len
    let eff ← lowering.eff.pushRollScope scope start stop
    return (span, { lowering with eff := eff })

end SourceLowering

/-- Lower a whole source into an arena of some capacity: `ProgramSourceData::emit`. The result has
the span of the lanes beside the arena. -/
def emitSource (capacity : Nat) (actors : Option ActorImage) (source : Source) :
    Run (Nat × EffList) := do
  let required := source.eventCount + source.scopeMarkerCount + source.resolverMarkerCount
  if required = 0 ∨ capacity < required then .error (.panic "source bucket selection")
  else
    let eff ← EffList.newPartitioned capacity source.eventCount source.scopeMarkerCount
      source.resolverMarkerCount
    let (span, lowering) ← SourceLowering.emit actors source .singlePass ⟨eff, 0⟩
    if lowering.eff.len ≠ source.eventCount ∨
        lowering.eff.markers.length ≠ source.scopeMarkerCount ∨
        lowering.eff.resolvers.length ≠ source.resolverMarkerCount then
      .error (.panic "type tree and lowered source disagree")
    else return (span, lowering.eff)

end Hibana
