/-
This file models ownership validation, `g/source/ownership.rs`.

Validation collects the endpoints of a source, walks it once, and at every
transfer equates the holder of the carried endpoint with the holder of the
sender. The equations are between unknown initial owners and actors, and a
union-find forest over the symbol table solves them. A query that meets an open
route splits the equation into one for each arm.
-/

import HibanaChoreography.Ownership.Queries

namespace Hibana

open Outcome

inductive ErrorKind where
  | capacity
  | nonUnitSelfMessage
  | endpointIsItsOwnCarrier
  | conflictingInitialOwners
  | unrootedInitialOwner
  | parallelOwnershipConflict
  | rollChangesOwner
  deriving DecidableEq, Repr

structure Error where
  kind : ErrorKind
  endpoint : Option EndpointKey
  deriving DecidableEq, Repr

inductive Owner where
  | actor (actor : UInt8)
  | initial (index : Nat)
  deriving DecidableEq, Repr

/-- Compiler scratch. The source keeps arrays with a length; here they are lists of that length.
A rank grows only when two trees of that rank are linked, so its `u8` never overflows. -/
structure Scratch where
  symbols : List Symbol
  initial : List InitialOwner
  events : List Message
  deriving DecidableEq, Repr

namespace Scratch

/-- Scratch with nothing in it. -/
def empty : Scratch where
  symbols := []
  initial := []
  events := []

/-- The queries that the scratch answers about a source. -/
def query (scratch : Scratch) (source : Source) : Query where
  source := source
  symbols := scratch.symbols
  initial := scratch.initial

/-! ### Collecting endpoints -/

def collectKey (symbolCapacity : Nat) (scratch : Scratch) (key : EndpointKey)
    (kind : EndpointKind) : Checked Error Scratch :=
  match symbolIndex scratch.symbols key with
  | some index =>
    match kind with
    | .delegated => .ok { scratch with symbols := scratch.symbols.set index ⟨key, kind⟩ }
    | .control => .ok scratch
  | none =>
    if scratch.symbols.length = symbolCapacity ∨ 65535 ≤ scratch.symbols.length then
      refuse ⟨.capacity, some key⟩
    else .ok { scratch with symbols := scratch.symbols ++ [⟨key, kind⟩] }

def collect (symbolCapacity : Nat) (source : Source) (scratch : Scratch) :
    Checked Error Scratch :=
  match source with
  | .send message => do
    let scratch ← scratch.collectKey symbolCapacity message.fromKey .control
    let scratch ← scratch.collectKey symbolCapacity message.toKey .control
    match message.payload with
    | .endpoint key => scratch.collectKey symbolCapacity key .delegated
    | .wire _ => return scratch
  | .seq left right | .par left right | .route left right _ => do
    let scratch ← collect symbolCapacity left scratch
    collect symbolCapacity right scratch
  | .roll body => collect symbolCapacity body scratch

/-- Every endpoint starts as the root of its own class. -/
def initializeOwners (scratch : Scratch) : Scratch :=
  { scratch with
    initial := (List.range scratch.symbols.length).map fun index => ⟨index, 0, none⟩ }

/-! ### Solving equations -/

def root (scratch : Scratch) (index : Nat) : Run Nat :=
  rootOf scratch.initial index

/-- The actor of a class, if the equations have found one. -/
def resolve (scratch : Scratch) (owner : Owner) : Run (Option UInt8) :=
  match owner with
  | .actor actor => .ok (some actor)
  | .initial index => do
    let root ← scratch.root index
    return scratch.initial[root]?.bind InitialOwner.actor

/-- Give the class with this root an actor, or compare with the one it has. -/
def bindActor (scratch : Scratch) (root : Nat) (actor : UInt8) : Bool × Scratch :=
  match scratch.initial[root]? with
  | none => (false, scratch)
  | some owner =>
    match owner.actor with
    | some known => (known == actor, scratch)
    | none =>
      (true, { scratch with
        initial := scratch.initial.set root { owner with actor := some actor } })

/-- Link the root `child` below the root `top`, whose rank is at least as high. -/
def link (scratch : Scratch) (top child : Nat) (topOwner childOwner : InitialOwner) : Scratch :=
  { scratch with
    initial := (scratch.initial.set child { childOwner with parent := top }).set top
      { topOwner with
        actor := topOwner.actor <|> childOwner.actor
        rank := if topOwner.rank = childOwner.rank then topOwner.rank + 1 else topOwner.rank } }

/-- Join the classes of two roots. -/
def joinRoots (scratch : Scratch) (left right : Nat) : Bool × Scratch :=
  if left = right then (true, scratch)
  else
    match scratch.initial[left]?, scratch.initial[right]? with
    | some leftOwner, some rightOwner =>
      let clash :=
        match leftOwner.actor, rightOwner.actor with
        | some leftActor, some rightActor => leftActor != rightActor
        | _, _ => false
      if clash then (false, scratch)
      else if leftOwner.rank < rightOwner.rank then
        (true, scratch.link right left rightOwner leftOwner)
      else (true, scratch.link left right leftOwner rightOwner)
    | _, _ => (false, scratch)

def unify (scratch : Scratch) (left right : Owner) : Run (Bool × Scratch) :=
  match left, right with
  | .actor left, .actor right => .ok (left == right, scratch)
  | .initial index, .actor actor | .actor actor, .initial index => do
    return scratch.bindActor (← scratch.root index) actor
  | .initial left, .initial right => do
    let leftRoot ← scratch.root left
    let rightRoot ← scratch.root right
    return scratch.joinRoots leftRoot rightRoot

def atom (scratch : Scratch) (atom : Atom) : Run Owner :=
  match atom with
  | .actor actor => .ok (.actor actor)
  | .initial key =>
    match symbolIndex scratch.symbols key with
    | some index => .ok (.initial index)
    | none => .error (.panic "collected initial owner")

/-- `equate` with fuel for its splits on open routes. -/
def equateFuel (source : Source) : Nat → Scratch → At → At → Context → Run (Bool × Scratch)
  | 0, _, _, _, _ => .error .fuel
  | fuel + 1, scratch, left, right, context => do
    let leftOwner ← (scratch.query source).owner left context
    let rightOwner ← (scratch.query source).owner right context
    match leftOwner, rightOwner with
    | .atom leftAtom, .atom rightAtom =>
      scratch.unify (← scratch.atom leftAtom) (← scratch.atom rightAtom)
    | .choice scope, _ | _, .choice scope => do
      let (same, scratch) ←
        equateFuel source fuel scratch left right (context.select ⟨scope, .left⟩)
      if same then equateFuel source fuel scratch left right (context.select ⟨scope, .right⟩)
      else return (false, scratch)

/-- Equate the holders of two endpoints, on every way to select the routes they depend on. Each
split decides one more route. -/
def equate (scratch : Scratch) (source : Source) (left right : At) (context : Context) :
    Run (Bool × Scratch) :=
  equateFuel source ((source.routes 0).length + 1) scratch left right context

/-! ### Walking the source -/

/-- The checks that one message has to pass, and the equation that it adds. -/
def emit (eventCapacity : Nat) (source : Source) (message : Message) (context : Context)
    (scratch : Scratch) : Checked Error Scratch := do
  if scratch.events.length = eventCapacity then refuse ⟨.capacity, none⟩
  else if message.fromKey = message.toKey ∧ message.payload ≠ .wire 0 then
    refuse ⟨.nonUnitSelfMessage, some message.fromKey⟩
  else
    match message.payload with
    | .wire _ => return { scratch with events := scratch.events ++ [message] }
    | .endpoint key =>
      if key = message.fromKey ∨ key = message.toKey then
        refuse ⟨.endpointIsItsOwnCarrier, some key⟩
      else
        let cut := scratch.events.length
        let (same, scratch) ←
          (scratch.equate source ⟨key, cut⟩ ⟨message.fromKey, cut⟩ context).checked
        if same then return { scratch with events := scratch.events ++ [message] }
        else refuse ⟨.conflictingInitialOwners, some key⟩

/-- Whether one arm transfers an endpoint that the other arm uses. -/
def parallelConflict (left right : Source) (symbol : Symbol) : Bool :=
  (left.transfers symbol.key && right.uses symbol.key) ||
    (right.transfers symbol.key && left.uses symbol.key)

/-- Equate the holders at both ends of a roll body, for every endpoint that it transfers. -/
def equateEnds (source body : Source) (start stop : Nat) (context : Context) :
    List Symbol → Scratch → Checked Error Scratch
  | [], scratch => .ok scratch
  | symbol :: symbols, scratch => do
    if body.transfers symbol.key then
      let (same, scratch) ←
        (scratch.equate source ⟨symbol.key, start⟩ ⟨symbol.key, stop⟩ context).checked
      if same then equateEnds source body start stop context symbols scratch
      else refuse ⟨.rollChangesOwner, some symbol.key⟩
    else equateEnds source body start stop context symbols scratch

def visit (eventCapacity : Nat) (root : Source) (source : Source) (context : Context)
    (scratch : Scratch) : Checked Error Scratch :=
  match source with
  | .send message => scratch.emit eventCapacity root message context
  | .seq left right => do
    let scratch ← visit eventCapacity root left context scratch
    visit eventCapacity root right context scratch
  | .par left right =>
    match scratch.symbols.find? (parallelConflict left right) with
    | some symbol => refuse ⟨.parallelOwnershipConflict, some symbol.key⟩
    | none => do
      let scratch ← visit eventCapacity root left context scratch
      visit eventCapacity root right context scratch
  | .route left right _ => do
    let scope := routeScope scratch.events.length left right
    let scratch ← visit eventCapacity root left (context.select ⟨scope, .left⟩) scratch
    visit eventCapacity root right (context.select ⟨scope, .right⟩) scratch
  | .roll body => do
    let start := scratch.events.length
    let scratch ← visit eventCapacity root body context scratch
    equateEnds root body start scratch.events.length context scratch.symbols scratch

/-- The first delegated endpoint of the table whose class has no actor. -/
def firstUnrooted (scratch : Scratch) : List Symbol → Nat → Run (Option EndpointKey)
  | [], _ => .ok none
  | symbol :: symbols, index =>
    match symbol.kind with
    | .control => firstUnrooted scratch symbols (index + 1)
    | .delegated => do
      match ← scratch.resolve (.initial index) with
      | none => return some symbol.key
      | some _ => firstUnrooted scratch symbols (index + 1)

end Scratch

/-- Validate a source, with room for this many symbols and events. The scratch that the caller
passes in is reset before it is read, so only the returned one is a value of the model. -/
def validate (symbolCapacity eventCapacity : Nat) (source : Source) : Checked Error Scratch :=
  if 65535 < symbolCapacity ∨ 65535 < eventCapacity ∨ eventCapacity < source.eventCount then
    refuse ⟨.capacity, none⟩
  else do
    let scratch ← Scratch.empty.collect symbolCapacity source
    let scratch ← scratch.initializeOwners.visit eventCapacity source source (Context.new [])
    match ← (scratch.firstUnrooted scratch.symbols 0).checked with
    | some key => refuse ⟨.unrootedInitialOwner, some key⟩
    | none => return scratch

end Hibana
