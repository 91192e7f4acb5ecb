/-
This file models the source-prefix ownership queries, `g/source/ownership/queries.rs`.

A query asks who holds an endpoint in front of a position. It walks the source
once, keeping a symbolic value: an actor, the unknown initial owner of a
delegated endpoint, the holder of another endpoint at an earlier position, or a
route whose arms disagree. Routes that the control path has decided, and routes
around the position itself, contribute only their taken arm.
-/

import HibanaChoreography.Source.Routes
import HibanaChoreography.Library.Forest

namespace Hibana

open Outcome

/-! ### Control paths -/

/-- A borrowed control path: selections made on the way, innermost first, over a base that is
either a list or an index by the binary split of the scope. -/
structure Context where
  base : List Selection
  indexed : Option (List (Option Selection))
  extra : List Selection

namespace Context

/-- A path whose base is a list of selections. -/
def new (base : List Selection) : Context where
  base := base
  indexed := none
  extra := []

/-- A path whose base is indexed by the source's binary split. -/
def fromIndex (indexed : List (Option Selection)) : Context where
  base := []
  indexed := some indexed
  extra := []

/-- The path extended by one selection. -/
def select (context : Context) (selection : Selection) : Context :=
  { context with extra := selection :: context.extra }

/-- The arm that the path has selected for a scope. -/
def get (context : Context) (scope : Scope) : Option Arm :=
  match context.extra.find? fun selection => selection.scope = scope with
  | some selection => some selection.arm
  | none =>
    match context.indexed with
    | some indexed =>
      match indexed[scope.split]?.join with
      | some selection => if selection.scope = scope then some selection.arm else none
      | none => none
    | none => (context.base.find? fun selection => selection.scope = scope).map Selection.arm

end Context

/-! ### Symbols and initial owners -/

inductive EndpointKind where
  | control
  | delegated
  deriving DecidableEq, Repr

/-- A collected endpoint, and whether some message of the source carries it. -/
structure Symbol where
  key : EndpointKey
  kind : EndpointKind
  deriving DecidableEq, Repr

/-- One node of the forest of initial owners. -/
structure InitialOwner where
  parent : Nat
  rank : Nat
  actor : Option UInt8
  deriving DecidableEq, Repr

/-- The parent function of the forest of initial owners. -/
def parentOf (initial : List InitialOwner) (index : Nat) : Option Nat :=
  initial[index]?.map InitialOwner.parent

/-- The root of an initial owner. Ranks grow along parents, so the chain is shorter than the
forest. -/
def rootOf (initial : List InitialOwner) (index : Nat) : Run Nat :=
  Forest.root (parentOf initial) (initial.length + 1) index

/-- The position of an endpoint among the collected symbols. -/
def symbolIndex (symbols : List Symbol) (key : EndpointKey) : Option Nat :=
  symbols.findIdx? fun symbol => symbol.key = key

/-! ### Queries -/

/-- An endpoint in front of an event position. -/
structure At where
  key : EndpointKey
  cut : Nat
  deriving DecidableEq, Repr

inductive Atom where
  | actor (actor : UInt8)
  | initial (key : EndpointKey)
  deriving DecidableEq, Repr

/-- What the walk over the source knows about the holder. -/
inductive Value where
  | atom (atom : Atom)
  | before (place : At)
  | choice (key : EndpointKey) (scope : Scope)
  deriving DecidableEq, Repr

/-- The answer of a query: a holder, or the route on which it still depends. -/
inductive Evaluation where
  | atom (atom : Atom)
  | choice (scope : Scope)
  deriving DecidableEq, Repr

structure Query where
  source : Source
  symbols : List Symbol
  initial : List InitialOwner

namespace Query

/-- Replace an initial owner by its actor, once its class has one. -/
def normalize (query : Query) (atom : Atom) : Run Atom :=
  match atom with
  | .actor _ => .ok atom
  | .initial key =>
    match symbolIndex query.symbols key with
    | none => .error (.panic "queried initial owner was not collected")
    | some index => do
      let root ← rootOf query.initial index
      match query.initial[root]?.bind InitialOwner.actor with
      | some actor => return .actor actor
      | none => return atom

def isDelegated (query : Query) (key : EndpointKey) : Bool :=
  match query.symbols.find? fun symbol => symbol.key = key with
  | some symbol => symbol.kind = .delegated
  | none => false

/-- The atom a value already is, whatever the open routes select. -/
def knownAtom (query : Query) (value : Value) : Run (Option Atom) :=
  match value with
  | .atom atom => do return some (← query.normalize atom)
  | .before place =>
    if query.isDelegated place.key then .ok none else .ok (some (.actor place.key.role))
  | .choice _ _ => .ok none

/-- The arm that a walk takes: the one the path has selected, or the one around the cut. -/
def selectedArm (context : Context) (scope : Scope) (cut : Nat) : Option Arm :=
  match context.get scope with
  | some arm => some arm
  | none => if cut < scope.stop then some (scope.armAt cut) else none

/-- The value behind an open route: its arms agree on an atom, or the route stays a choice. -/
def merge (query : Query) (key : EndpointKey) (scope : Scope) (left right : Value) :
    Run Value := do
  match ← query.knownAtom left, ← query.knownAtom right with
  | some leftAtom, some rightAtom =>
    if leftAtom = rightAtom then return .atom leftAtom else return .choice key scope
  | _, _ => return .choice key scope

/-- The value of an endpoint behind the part of `source` that lies below the cut, when
`previous` is its value in front of `source`. -/
def after (query : Query) (source : Source) (start : Nat) (place : At) (previous : Value)
    (context : Context) : Run Value :=
  if place.cut ≤ start || !source.mayTransfer place.key then .ok previous
  else
    match source with
    | .send message =>
      -- Capture the receiver's holder at this event: moving the receiving endpoint later
      -- must not drag this value along.
      if message.payload = .endpoint place.key then .ok (.before ⟨message.toKey, start⟩)
      else .ok previous
    | .seq left right | .par left right => do
      let prior ← query.after left start place previous context
      query.after right (start + left.eventCount) place prior context
    | .route left right _ =>
      let scope := routeScope start left right
      match selectedArm context scope place.cut with
      | some .left => query.after left start place previous context
      | some .right => query.after right (start + left.eventCount) place previous context
      | none => do
        let leftValue ← query.after left start place previous (context.select ⟨scope, .left⟩)
        let rightValue ← query.after right (start + left.eventCount) place previous
          (context.select ⟨scope, .right⟩)
        query.merge place.key scope leftValue rightValue
    | .roll body => query.after body start place previous context

/-- Reduce a value to an answer; `owner` answers the queries it still contains. -/
def evaluate (query : Query) (owner : At → Context → Run Evaluation) (value : Value)
    (context : Context) : Run Evaluation :=
  match value with
  | .atom atom => do return .atom (← query.normalize atom)
  | .before place => owner place context
  | .choice key scope =>
    match context.get scope with
    | some _ => owner ⟨key, scope.stop⟩ context
    | none => .ok (.choice scope)

/-- `owner` with fuel for the queries that its answer leads to. -/
def ownerFuel (query : Query) : Nat → At → Context → Run Evaluation
  | 0, _, _ => .error .fuel
  | fuel + 1, place, context =>
    if query.isDelegated place.key then do
      let value ← query.after query.source 0 place (.atom (.initial place.key)) context
      query.evaluate (query.ownerFuel fuel) value context
    else .ok (.atom (.actor place.key.role))

/-- The holder of an endpoint in front of a position. A query only leads to queries at smaller
positions. -/
def owner (query : Query) (place : At) (context : Context) : Run Evaluation :=
  query.ownerFuel (place.cut + 1) place context

end Query

end Hibana
