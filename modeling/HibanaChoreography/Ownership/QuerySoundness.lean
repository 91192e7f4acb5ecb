/-
This file proves that the ownership queries agree with replay.

Fix an assignment of the initial owners that satisfies the solved constraints,
and a route assignment that agrees with the control path of the query. Then the
walk over the source returns, and its symbolic value denotes the holder that
replay finds in front of the cut. A query whose answer is a choice names a route
that the path leaves open and that ends in front of the cut, so a caller that
splits on the answer makes progress.
-/

import HibanaChoreography.Ownership.Queries
import HibanaChoreography.Source.Replay
import Mathlib.Data.Finset.Card
import Mathlib.Data.Finset.Dedup

namespace Hibana

open Outcome List

/-! ### Control paths and assignments -/

variable {env : Assignment} {arm : Arm} {resolver : Option UInt16}

namespace Context

/-- The assignment makes the selections of the path. -/
def Agrees (context : Context) (assignment : Assignment) : Prop :=
  ∀ scope arm, context.get scope = some arm → assignment scope = arm

/-- The path has decided every route of a subtree around a position. -/
def Closes (context : Context) (source : Source) (start cut : Nat) : Prop :=
  ∀ scope ∈ source.routes start, scope.start < cut → cut < scope.stop → context.get scope ≠ none

/-- No decided route of a subtree has the scope in the arm that is not taken. -/
def Reaches (context : Context) (source : Source) (start : Nat) (scope : Scope) : Prop :=
  ∀ route ∈ source.routes start, ∀ arm, context.get route = some arm → ∀ other, other ≠ arm →
    ¬ route.Holds other scope.start scope.stop

theorem get_select (context : Context) (selection : Selection) (scope : Scope) :
    (context.select selection).get scope =
      if selection.scope = scope then some selection.arm else context.get scope := by
  by_cases same : selection.scope = scope
  · simp [select, get, same]
  · simp [select, get, same]

theorem get_select_self (context : Context) (scope : Scope) (arm : Arm) :
    (context.select ⟨scope, arm⟩).get scope = some arm := by
  rw [get_select, if_pos rfl]

variable {context : Context} {scope : Scope} {start : Nat}

theorem get_of_select_eq_none {selection : Selection}
    (isOpen : (context.select selection).get scope = none) : context.get scope = none := by
  rw [get_select] at isOpen
  split at isOpen
  · cases isOpen
  · exact isOpen

theorem get_select_ne_none (selection : Selection) (decided : context.get scope ≠ none) :
    (context.select selection).get scope ≠ none :=
  fun isOpen => decided (get_of_select_eq_none isOpen)

theorem Agrees.select (agrees : context.Agrees env) (chosen : env scope = arm) :
    (context.select ⟨scope, arm⟩).Agrees env := by
  intro other picked found
  rw [get_select] at found
  split at found
  · rename_i same
    rw [← same, chosen]
    exact Option.some.inj found
  · exact agrees other picked found

/-- Selecting an arm of an open route keeps the assignments that take the arm. -/
theorem agrees_select_iff (isOpen : context.get scope = none) (arm : Arm) (env : Assignment) :
    (context.select ⟨scope, arm⟩).Agrees env ↔ context.Agrees env ∧ env scope = arm := by
  constructor
  · intro agrees
    refine ⟨fun other picked found => agrees other picked ?_, agrees scope arm ?_⟩
    · have ne : scope ≠ other := by
        rintro rfl
        rw [isOpen] at found
        cases found
      rw [get_select, if_neg ne, found]
    · exact get_select_self context scope arm
  · rintro ⟨agrees, chosen⟩
    exact agrees.select chosen

/-- An assignment that agrees with a path takes one arm of every route. -/
theorem forall_agrees_iff (isOpen : context.get scope = none) (condition : Assignment → Prop) :
    (∀ env, context.Agrees env → condition env) ↔
      (∀ env, (context.select ⟨scope, .left⟩).Agrees env → condition env) ∧
        ∀ env, (context.select ⟨scope, .right⟩).Agrees env → condition env := by
  constructor
  · intro holds
    exact ⟨fun env agrees => holds env ((agrees_select_iff isOpen _ _).mp agrees).1,
      fun env agrees => holds env ((agrees_select_iff isOpen _ _).mp agrees).1⟩
  · rintro ⟨onLeft, onRight⟩ env agrees
    cases chosen : env scope with
    | left => exact onLeft env (agrees.select chosen)
    | right => exact onRight env (agrees.select chosen)

variable {source : Source}

theorem Closes.select {cut : Nat} (closes : context.Closes source start cut)
    (selection : Selection) :
    (context.select selection).Closes source start cut :=
  fun scope mem low high => get_select_ne_none selection (closes scope mem low high)

/-- The scopes of a list that a path leaves open. -/
def openScopes (scopes : List Scope) (context : Context) : Finset Scope :=
  scopes.toFinset.filter fun scope => context.get scope = none

theorem openScopes_card_le (scopes : List Scope) (context : Context) :
    (openScopes scopes context).card ≤ scopes.length :=
  (Finset.card_filter_le _ _).trans (toFinset_card_le _)

/-- Selecting an arm of an open scope leaves fewer of them open. -/
theorem openScopes_select_lt {scopes : List Scope} (mem : scope ∈ scopes)
    (isOpen : context.get scope = none) (arm : Arm) :
    (openScopes scopes (context.select ⟨scope, arm⟩)).card < (openScopes scopes context).card := by
  refine Finset.card_lt_card (Finset.ssubset_iff_subset_ne.mpr ⟨?_, ?_⟩)
  · intro other inSelected
    obtain ⟨inScopes, stillOpen⟩ := Finset.mem_filter.mp inSelected
    exact Finset.mem_filter.mpr ⟨inScopes, get_of_select_eq_none stillOpen⟩
  · intro same
    have wasOpen : scope ∈ openScopes scopes context :=
      Finset.mem_filter.mpr ⟨mem_toFinset.mpr mem, isOpen⟩
    rw [← same] at wasOpen
    have stillOpen := (Finset.mem_filter.mp wasOpen).2
    rw [get_select_self] at stillOpen
    cases stillOpen

/-- A path with more decisions reaches less. -/
theorem Reaches.of_select {read : Scope} (isOpen : context.get scope = none)
    (reaches : (context.select ⟨scope, arm⟩).Reaches source start read) :
    context.Reaches source start read := by
  intro route mem taken decided
  have ne : scope ≠ route := by
    rintro rfl
    rw [isOpen] at decided
    cases decided
  refine reaches route mem taken ?_
  rw [get_select, if_neg ne]
  exact decided

/-- An open route is in no arm of a route inside it. -/
theorem reaches_routeScope {left right : Source}
    (isOpen : context.get (routeScope start left right) = none) :
    context.Reaches (.route left right resolver) start (routeScope start left right) := by
  intro route mem arm decided other _ held
  have leftPos := left.eventCount_pos
  have rightPos := right.eventCount_pos
  rcases mem_cons.mp mem with rfl | inArms
  · rw [isOpen] at decided
    cases decided
  · rcases mem_append.mp inArms with inLeft | inRight
    · have bounds := Source.routes_bounds inLeft
      cases other <;> simp only [Scope.Holds, routeScope] at held <;> omega
    · have bounds := Source.routes_bounds inRight
      cases other <;> simp only [Scope.Holds, routeScope] at held <;> omega

/-- The assignment that follows the path and takes left arms elsewhere. -/
def completed (context : Context) : Assignment :=
  fun scope => (context.get scope).getD .left

theorem agrees_completed (context : Context) : context.Agrees context.completed := by
  intro scope arm found
  simp only [completed, found, Option.getD_some]

end Context

/-! ### The constraints on initial owners -/

/-- The holder of the endpoint at an index of the symbol table. -/
def holderAt (symbols : List Symbol) (holders : Holders) (index : Nat) : Option UInt8 :=
  symbols[index]?.map fun symbol => holders symbol.key

/-- An assignment of initial owners satisfies the forest: indices of one class have one owner,
and a class whose root has an actor is owned by it. -/
def Satisfies (symbols : List Symbol) (initial : List InitialOwner) (holders : Holders) : Prop :=
  ∀ index owner, initial[index]? = some owner →
    holderAt symbols holders index = holderAt symbols holders owner.parent ∧
      (owner.parent = index → ∀ actor, owner.actor = some actor →
        holderAt symbols holders index = some actor)

/-- The rank of an index. -/
def rankOf (initial : List InitialOwner) (index : Nat) : Nat :=
  (initial[index]?.map InitialOwner.rank).getD 0

variable {symbols : List Symbol} {index : Nat} {key : EndpointKey}

theorem symbolIndex_spec (found : symbolIndex symbols key = some index) :
    ∃ symbol, symbols[index]? = some symbol ∧ symbol.key = key := by
  obtain ⟨inside, isKey, _⟩ := findIdx?_eq_some_iff_getElem.mp found
  exact ⟨symbols[index], getElem?_eq_getElem inside, by simpa using isKey⟩

theorem holderAt_of_symbolIndex (found : symbolIndex symbols key = some index) (holders : Holders) :
    holderAt symbols holders index = some (holders key) := by
  obtain ⟨symbol, isSymbol, rfl⟩ := symbolIndex_spec found
  simp [holderAt, isSymbol]

variable {holders : Holders}

theorem Satisfies.root {initial : List InitialOwner} (satisfies : Satisfies symbols initial holders)
    {top : Nat} (found : rootOf initial index = .ok top) :
    holderAt symbols holders index = holderAt symbols holders top := by
  refine Forest.constant_of_root_eq_ok ?_ found
  intro child next isNext
  obtain ⟨owner, isOwner, rfl⟩ := Option.map_eq_some_iff.mp isNext
  exact (satisfies child owner isOwner).1

namespace Query

/-- The state in which queries are asked: the forest is ranked, and every carried endpoint has
been collected as delegated. -/
structure WellFormed (query : Query) : Prop where
  size : query.initial.length = query.symbols.length
  ranked : Forest.Ranked (parentOf query.initial) (rankOf query.initial) query.initial.length
  carried : ∀ message ∈ query.source.messages, ∀ key, message.payload = .endpoint key →
    query.isDelegated key = true

/-- The assignments of initial owners that the query speaks about: an endpoint that is never
carried belongs to its own role. -/
structure Solves (query : Query) (holders : Holders) : Prop where
  satisfies : Satisfies query.symbols query.initial holders
  static : ∀ key, query.isDelegated key = false → holders key = key.role

/-- The atom refers to a delegated endpoint, if to any. -/
def Collected (query : Query) : Atom → Prop
  | .actor _ => True
  | .initial key => query.isDelegated key = true

end Query

/-- The actor that an atom denotes. -/
def Atom.denote (atom : Atom) (holders : Holders) : UInt8 :=
  match atom with
  | .actor holder => holder
  | .initial key => holders key

/-- The actor that a value denotes: the holder of its endpoint at its position. -/
def Value.denote (value : Value) (root : Source) (assignment : Assignment) (holders : Holders) :
    UInt8 :=
  match value with
  | .atom known => known.denote holders
  | .before place => root.holdersAt assignment holders place.cut place.key
  | .choice key scope => root.holdersAt assignment holders scope.stop key

namespace Query

variable {query : Query}

theorem isDelegated_eq (query : Query) (key : EndpointKey) :
    query.isDelegated key = ((symbolIndex query.symbols key).bind (query.symbols[·]?)).any
        (fun symbol => symbol.kind = .delegated) := by
  unfold isDelegated symbolIndex
  rw [find?_eq_bind_findIdx?_getElem?]
  cases (List.findIdx? (fun symbol => decide (symbol.key = key)) query.symbols).bind
    (query.symbols[·]?) <;> rfl

theorem symbolIndex_of_isDelegated (delegated : query.isDelegated key = true) :
    ∃ index symbol, symbolIndex query.symbols key = some index ∧
      query.symbols[index]? = some symbol ∧ symbol.kind = .delegated := by
  rw [isDelegated_eq] at delegated
  obtain ⟨symbol, found, kind⟩ := (Option.any_eq_true _ _).mp delegated
  obtain ⟨index, isIndex, isSymbol⟩ := Option.bind_eq_some_iff.mp found
  exact ⟨index, symbol, isIndex, isSymbol, by simpa using kind⟩

theorem WellFormed.rootOf_ok (wellFormed : query.WellFormed)
    (inside : index < query.symbols.length) :
    ∃ top, rootOf query.initial index = .ok top ∧ top < query.symbols.length := by
  have bound := Forest.above_card_le (rankOf query.initial) query.initial.length index
  obtain ⟨top, found, topInside, _⟩ := wellFormed.ranked.root_ok (query.initial.length + 1) index
    (by rw [wellFormed.size]; exact inside) (by omega)
  exact ⟨top, found, by rw [← wellFormed.size]; exact topInside⟩

/-- Normalising an atom returns, and keeps what it denotes under every solution. -/
theorem normalize_spec (wellFormed : query.WellFormed) {atom : Atom}
    (collected : query.Collected atom) :
    ∃ normal, query.normalize atom = .ok normal ∧ query.Collected normal ∧
      ∀ holders, Satisfies query.symbols query.initial holders →
        normal.denote holders = atom.denote holders := by
  cases atom with
  | actor actor => exact ⟨.actor actor, rfl, trivial, fun _ _ => rfl⟩
  | initial key =>
    obtain ⟨index, symbol, isIndex, isSymbol, _⟩ := symbolIndex_of_isDelegated collected
    obtain ⟨inside, _⟩ := List.getElem?_eq_some_iff.mp isSymbol
    obtain ⟨top, isTop, topInside⟩ := wellFormed.rootOf_ok inside
    cases known : query.initial[top]?.bind InitialOwner.actor with
    | none =>
      exact ⟨.initial key, by simp [normalize, isIndex, isTop, known], collected, fun _ _ => rfl⟩
    | some actor =>
      refine ⟨.actor actor, by simp [normalize, isIndex, isTop, known], trivial, ?_⟩
      intro holders satisfies
      obtain ⟨owner, isOwner, isActor⟩ := Option.bind_eq_some_iff.mp known
      have isRoot := Forest.parent_of_root_eq_ok isTop
      rw [parentOf, isOwner] at isRoot
      have classHolder := satisfies.root isTop
      rw [holderAt_of_symbolIndex isIndex,
        (satisfies top owner isOwner).2 (Option.some.inj isRoot) actor isActor] at classHolder
      exact (Option.some.inj classHolder).symm

/-! ### The walk over the source -/

/-- An endpoint that is never carried stays with its own role. -/
theorem holdersAt_static (wellFormed : query.WellFormed) (solves : query.Solves holders)
    (env : Assignment) (cut : Nat) (static : query.isDelegated key = false) :
    query.source.holdersAt env holders cut key = key.role := by
  rw [Source.holdersAt, replay_of_ne _ _ ?_, solves.static key static]
  intro event mem carried
  have message := Source.mem_messages_of_mem_presentEvents (mem_of_mem_filter mem)
  rw [wellFormed.carried _ message key carried] at static
  cases static

/-- The atoms of a value have been collected. -/
def ValueCollected (query : Query) (value : Value) : Prop :=
  ∀ atom, value = .atom atom → query.Collected atom

variable {value : Value} {source left right : Source} {start cut : Nat} {place : At}
  {context : Context} {scope : Scope}

/-- An atom that a value is known to be denotes the same on every assignment. -/
theorem knownAtom_spec (wellFormed : query.WellFormed) (collected : query.ValueCollected value) :
    ∃ known, query.knownAtom value = .ok known ∧ ∀ atom, known = some atom → query.Collected atom ∧
        ∀ holders, query.Solves holders → ∀ env,
          value.denote query.source env holders = atom.denote holders := by
  cases value with
  | atom atom =>
    obtain ⟨normal, isNormal, normalCollected, same⟩ :=
      normalize_spec wellFormed (collected atom rfl)
    refine ⟨some normal, by simp [knownAtom, isNormal], ?_⟩
    rintro _ ⟨⟩
    exact ⟨normalCollected, fun holders solves _ => (same holders solves.satisfies).symm⟩
  | before place =>
    cases delegated : query.isDelegated place.key with
    | true => exact ⟨none, by simp [knownAtom, delegated], nofun⟩
    | false =>
      refine ⟨some (.actor place.key.role), by simp [knownAtom, delegated], ?_⟩
      rintro _ ⟨⟩
      exact ⟨trivial, fun holders solves env =>
        holdersAt_static wellFormed solves env place.cut delegated⟩
  | choice key scope => exact ⟨none, rfl, nofun⟩

theorem merge_spec (wellFormed : query.WellFormed) (key : EndpointKey) (scope : Scope)
    {left right : Value} (leftCollected : query.ValueCollected left)
    (rightCollected : query.ValueCollected right) :
    ∃ value, query.merge key scope left right = .ok value ∧
      (value = .choice key scope ∨ ∃ atom, value = .atom atom ∧ query.Collected atom ∧
        ∀ holders, query.Solves holders → ∀ env,
          left.denote query.source env holders = atom.denote holders ∧
            right.denote query.source env holders = atom.denote holders) := by
  obtain ⟨leftKnown, isLeft, leftSpec⟩ := knownAtom_spec wellFormed leftCollected
  obtain ⟨rightKnown, isRight, rightSpec⟩ := knownAtom_spec wellFormed rightCollected
  cases leftKnown with
  | none => exact ⟨.choice key scope, by simp [merge, isLeft, isRight], .inl rfl⟩
  | some leftAtom =>
    cases rightKnown with
    | none => exact ⟨.choice key scope, by simp [merge, isLeft, isRight], .inl rfl⟩
    | some rightAtom =>
      by_cases same : leftAtom = rightAtom
      · subst same
        refine ⟨.atom leftAtom, by simp [merge, isLeft, isRight], .inr ⟨leftAtom, rfl, ?_⟩⟩
        obtain ⟨atomCollected, leftSame⟩ := leftSpec leftAtom rfl
        obtain ⟨_, rightSame⟩ := rightSpec leftAtom rfl
        exact ⟨atomCollected, fun holders solves env =>
          ⟨leftSame holders solves env, rightSame holders solves env⟩⟩
      · exact ⟨.choice key scope, by simp [merge, isLeft, isRight, same], .inl rfl⟩

/-- A value that the walk over a subtree has made itself. An earlier query that it refers to
lies in the subtree, in front of the cut, and in no open route that ends in front of the cut; a
choice is an open route of the subtree that ends in front of the cut. -/
def Produced (query : Query) (source : Source) (start : Nat) (place : At) (context : Context) :
    Value → Prop
  | .atom atom => query.Collected atom
  | .before earlier =>
    start ≤ earlier.cut ∧ earlier.cut < start + source.eventCount ∧ earlier.cut < place.cut ∧
      ∀ scope ∈ source.routes start, context.get scope = none → scope.start ≤ earlier.cut →
        earlier.cut < scope.stop → place.cut < scope.stop
  | .choice key scope =>
    key = place.key ∧ scope ∈ source.routes start ∧ context.get scope = none ∧
      scope.stop ≤ place.cut ∧ context.Reaches source start scope

theorem Produced.collected (produced : query.Produced source start place context value) :
    query.ValueCollected value := by
  rintro atom rfl
  exact produced

/-- What a part of a subtree has produced, the subtree has produced. -/
theorem Produced.widen {part source : Source} {partStart start : Nat}
    (produced : query.Produced part partStart place context value) (lower : start ≤ partStart)
    (upper : partStart + part.eventCount ≤ start + source.eventCount)
    (inner : ∀ scope ∈ part.routes partStart, scope ∈ source.routes start)
    (outer : ∀ scope ∈ source.routes start, scope ∈ part.routes partStart ∨
      scope.stop ≤ partStart ∨ partStart + part.eventCount ≤ scope.start ∨
        (context.get scope = none → place.cut < scope.stop) ∧ ∀ arm, context.get scope = some arm →
            scope.Holds arm partStart (partStart + part.eventCount)) :
    query.Produced source start place context value := by
  cases value with
  | atom atom => exact produced
  | before earlier =>
    obtain ⟨low, high, below, openRoutes⟩ := produced
    refine ⟨by omega, by omega, below, ?_⟩
    intro scope mem isOpen scopeLow scopeHigh
    rcases outer scope mem with inPart | before | behind | ⟨around, _⟩
    · exact openRoutes scope inPart isOpen scopeLow scopeHigh
    · omega
    · omega
    · exact around isOpen
  | choice key scope =>
    obtain ⟨isKey, mem, isOpen, below, reaches⟩ := produced
    have bounds := Source.routes_bounds mem
    refine ⟨isKey, inner scope mem, isOpen, below, ?_⟩
    intro route isRoute arm decided other ne held
    rcases outer route isRoute with inPart | before | behind | ⟨_, around⟩
    · exact reaches route inPart arm decided other ne held
    · have routeBounds := Source.routes_bounds isRoute
      cases other <;> simp only [Scope.Holds] at held <;> omega
    · have routeBounds := Source.routes_bounds isRoute
      cases other <;> simp only [Scope.Holds] at held <;> omega
    · have inArm := around arm decided
      cases other <;> cases arm <;> simp only [Scope.Holds] at held inArm <;>
        first | omega | exact ne rfl

theorem after_of_skip (skip : place.cut ≤ start ∨ source.mayTransfer place.key = false)
    (previous : Value) (context : Context) :
    query.after source start place previous context = .ok previous := by
  have guard : (decide (place.cut ≤ start) || !source.mayTransfer place.key) = true := by
    rcases skip with early | never
    · simp [early]
    · simp [never]
  unfold after
  rw [if_pos guard]


theorem not_skip (active : ¬ (place.cut ≤ start ∨ source.mayTransfer place.key = false)) :
    ¬ (decide (place.cut ≤ start) || !source.mayTransfer place.key) = true := by
  simpa using active

/-- What the walk over a subtree makes of the value it was given: it hands it on or produces one,
and it turns the holder in front of the subtree into the holder behind the part of it that lies
below the cut. -/
def Walked (query : Query) (source : Source) (start : Nat) (place : At) (context : Context)
    (previous value : Value) : Prop :=
  (value = previous ∨ query.Produced source start place context value) ∧
    ∀ env holders, query.Solves holders → query.source.Window env source start →
      context.Agrees env → context.Closes source start place.cut →
      previous.denote query.source env holders =
        query.source.holdersAt env holders (min place.cut start) place.key →
      value.denote query.source env holders =
        query.source.holdersAt env holders (min place.cut (start + source.eventCount)) place.key

/-- The walk over a subtree returns. -/
def Walks (query : Query) (source : Source) : Prop :=
  ∀ (start : Nat) (place : At) (previous : Value) (context : Context),
    query.ValueCollected previous →
      ∃ value, query.after source start place previous context = .ok value ∧
        query.Walked source start place context previous value

variable {env : Assignment} {holders : Holders} {previous : Value}

theorem Walked.collected (walked : query.Walked source start place context previous value)
    (collected : query.ValueCollected previous) : query.ValueCollected value := by
  rcases walked.1 with rfl | produced
  · exact collected
  · exact produced.collected

/-- A skipped subtree keeps the holder. -/
theorem holdersAt_of_skip (window : query.source.Window env source start)
    (skip : place.cut ≤ start ∨ source.mayTransfer place.key = false) :
    query.source.holdersAt env holders (min place.cut (start + source.eventCount)) place.key =
      query.source.holdersAt env holders (min place.cut start) place.key := by
  rcases Nat.le_total place.cut start with early | late
  · rw [Nat.min_eq_left early, Nat.min_eq_left (by omega)]
  · rw [Nat.min_eq_right late]
    rcases skip with early | never
    · have same : min place.cut (start + source.eventCount) = start := by omega
      rw [same]
    · refine window.holdersAt_of_not_carried holders ?_ (by omega) (by omega)
      intro message mem carried
      rw [Source.mayTransfer_of_mem_messages mem carried] at never
      cases never

/-- A subtree that is skipped hands on its value. -/
theorem walks_of_active (active : ∀ start place previous context, query.ValueCollected previous →
      ¬ (place.cut ≤ start ∨ source.mayTransfer place.key = false) →
      ∃ value, query.after source start place previous context = .ok value ∧
        query.Walked source start place context previous value) : query.Walks source := by
  intro start place previous context collected
  by_cases skip : place.cut ≤ start ∨ source.mayTransfer place.key = false
  · refine ⟨previous, after_of_skip skip previous context, .inl rfl, ?_⟩
    intro env holders _ window _ _ denotes
    rw [holdersAt_of_skip window skip, denotes]
  · exact active start place previous context collected skip

theorem walks_send (message : Message) : query.Walks (.send message) := by
  refine walks_of_active fun start place previous context collected skip => ?_
  have active : start < place.cut := by omega
  have inFront : min place.cut start = start := by omega
  have behind : min place.cut (start + (Source.send message).eventCount) = start + 1 := by
    simp only [Source.eventCount]
    omega
  rw [after, if_neg (not_skip skip)]
  by_cases carried : message.payload = .endpoint place.key
  · refine ⟨.before ⟨message.toKey, start⟩, by simp [carried],
      .inr ⟨le_rfl, Nat.lt_succ_self _, active, forall_mem_nil _⟩, ?_⟩
    intro env holders _ window _ _ _
    rw [behind, window.holdersAt_send]
    simp [Value.denote, Holders.transfer, carried]
  · refine ⟨previous, by simp [carried], .inl rfl, ?_⟩
    intro env holders _ window _ _ denotes
    rw [denotes, inFront, behind, window.holdersAt_send, transfer_of_ne _ carried]

/-- What the first of two neighbours has produced. -/
theorem Produced.seq_left (produced : query.Produced left start place context value) :
    query.Produced (.seq left right) start place context value := by
  refine produced.widen le_rfl (by simp only [Source.eventCount]; omega)
    (fun scope mem => mem_append_left _ mem) ?_
  intro scope mem
  refine (mem_append.mp mem).imp_right fun inRight => ?_
  exact .inr (.inl (Source.routes_bounds inRight).1)

theorem Produced.seq_right
    (produced : query.Produced right (start + left.eventCount) place context value) :
    query.Produced (.seq left right) start place context value := by
  refine produced.widen (by omega) (by simp only [Source.eventCount]; omega)
    (fun scope mem => mem_append_right _ mem) ?_
  intro scope mem
  rcases mem_append.mp mem with inLeft | inRight
  · exact .inr (.inl (Source.routes_bounds inLeft).2.2.2)
  · exact .inl inRight

theorem walks_seq (leftWalks : query.Walks left) (rightWalks : query.Walks right) :
    query.Walks (.seq left right) := by
  refine walks_of_active fun start place previous context collected skip => ?_
  obtain ⟨prior, isPrior, priorWalked⟩ := leftWalks start place previous context collected
  obtain ⟨value, isValue, walked⟩ := rightWalks (start + left.eventCount) place prior context
    (priorWalked.collected collected)
  rw [after, if_neg (not_skip skip)]
  refine ⟨value, by simp only [isPrior, Run.bind_ok, isValue], ?_, ?_⟩
  · rcases walked.1 with rfl | produced
    · exact priorWalked.1.imp_right Produced.seq_left
    · exact .inr produced.seq_right
  · intro env holders solves window agrees closes denotes
    have priorDenotes := priorWalked.2 env holders solves window.seq_left agrees
      (fun scope mem => closes scope (mem_append_left _ mem)) denotes
    rw [walked.2 env holders solves window.seq_right agrees
      (fun scope mem => closes scope (mem_append_right _ mem)) priorDenotes,
      Source.eventCount, Nat.add_assoc]

/-- A route that the path leaves open ends behind the cut when the walk takes one arm of it. -/
theorem cut_lt_of_selectedArm (selected : selectedArm context scope cut = some arm)
    (isOpen : context.get scope = none) : cut < scope.stop := by
  unfold selectedArm at selected
  rw [isOpen] at selected
  by_contra outside
  simp [outside] at selected

theorem eq_of_selectedArm {arm decided : Arm} (selected : selectedArm context scope cut = some arm)
    (isDecided : context.get scope = some decided) : decided = arm := by
  unfold selectedArm at selected
  rw [isDecided] at selected
  exact Option.some.inj selected

theorem selectedArm_eq_none (selected : selectedArm context scope cut = none) :
    context.get scope = none ∧ scope.stop ≤ cut := by
  unfold selectedArm at selected
  split at selected
  · cases selected
  · rename_i isOpen
    refine ⟨isOpen, ?_⟩
    by_contra inside
    simp [Nat.lt_of_not_le inside] at selected

theorem Produced.route_left (produced : query.Produced left start place context value)
    (selected : selectedArm context (routeScope start left right) place.cut = some .left) :
    query.Produced (.route left right resolver) start place context value := by
  refine produced.widen le_rfl (by simp only [Source.eventCount]; omega)
    (fun scope mem => mem_cons_of_mem _ (mem_append_left _ mem)) ?_
  intro scope mem
  rcases mem_cons.mp mem with rfl | inArms
  · refine .inr (.inr (.inr ⟨cut_lt_of_selectedArm selected, fun arm decided => ?_⟩))
    rw [eq_of_selectedArm selected decided]
    exact ⟨le_rfl, le_rfl⟩
  · refine (mem_append.mp inArms).imp_right fun inRight => ?_
    exact .inr (.inl (Source.routes_bounds inRight).1)

theorem Produced.route_right
    (produced : query.Produced right (start + left.eventCount) place context value)
    (selected : selectedArm context (routeScope start left right) place.cut = some .right) :
    query.Produced (.route left right resolver) start place context value := by
  refine produced.widen (by omega) (by simp only [Source.eventCount]; omega)
    (fun scope mem => mem_cons_of_mem _ (mem_append_right _ mem)) ?_
  intro scope mem
  rcases mem_cons.mp mem with rfl | inArms
  · refine .inr (.inr (.inr ⟨cut_lt_of_selectedArm selected, fun arm decided => ?_⟩))
    rw [eq_of_selectedArm selected decided]
    exact ⟨le_rfl, le_rfl⟩
  · rcases mem_append.mp inArms with inLeft | inRight
    · exact .inr (.inl (Source.routes_bounds inLeft).2.2.2)
    · exact .inl inRight

/-- Only the taken arm of a route moves the holder. -/
theorem holdersAt_left (window : query.source.Window env (.route left right resolver) start)
    (chosen : env (routeScope start left right) = .left) (cut : Nat) :
    query.source.holdersAt env holders
        (min cut (start + (Source.route left right resolver).eventCount)) =
      query.source.holdersAt env holders (min cut (start + left.eventCount)) := by
  have count : (Source.route left right resolver).eventCount =
    left.eventCount + right.eventCount := rfl
  rcases Nat.le_total cut (start + left.eventCount) with inside | behind
  · rw [Nat.min_eq_left inside, Nat.min_eq_left (by omega)]
  · rw [Nat.min_eq_right behind]
    exact window.holdersAt_stop_of_left chosen holders (by omega) (by omega)

theorem holdersAt_right (window : query.source.Window env (.route left right resolver) start)
    (chosen : env (routeScope start left right) = .right) (cut : Nat) :
    query.source.holdersAt env holders (min cut (start + left.eventCount)) =
      query.source.holdersAt env holders (min cut start) := by
  rcases Nat.le_total cut start with before | behind
  · rw [Nat.min_eq_left before, Nat.min_eq_left (by omega)]
  · rw [Nat.min_eq_right behind]
    exact window.holdersAt_split_of_right chosen holders (by omega) (by omega)

/-- The arm that a walk takes is the arm of the assignment. -/
theorem chosen_of_selectedArm (agrees : context.Agrees env)
    (closes : context.Closes source start cut) (mem : scope ∈ source.routes start)
    (active : scope.start < cut) (selected : selectedArm context scope cut = some arm) :
    env scope = arm := by
  cases decided : context.get scope with
  | none =>
    exact absurd decided (closes scope mem active (cut_lt_of_selectedArm selected decided))
  | some picked =>
    rw [agrees scope picked decided]
    simpa [selectedArm, decided] using selected

section Arms

variable {path : Context} (solves : query.Solves holders)
  (window : query.source.Window env (.route left right resolver) start) (agrees : path.Agrees env)
  (closes : context.Closes (.route left right resolver) start place.cut)
  (denotes : previous.denote query.source env holders =
    query.source.holdersAt env holders (min place.cut start) place.key)
include solves window agrees closes denotes

/-- On the arm of the assignment the walk moves the holder, the other arm leaves it alone. -/
theorem Walked.denotes_left (walked : query.Walked left start place path previous value)
    (more : ∀ scope, context.get scope ≠ none → path.get scope ≠ none)
    (chosen : env (routeScope start left right) = .left) :
    value.denote query.source env holders = query.source.holdersAt env holders
      (min place.cut (start + (Source.route left right resolver).eventCount)) place.key := by
  rw [holdersAt_left window chosen]
  exact walked.2 env holders solves (window.route_left chosen) agrees (fun scope mem low high =>
    more scope (closes scope (mem_cons_of_mem _ (mem_append_left _ mem)) low high)) denotes

theorem Walked.denotes_right
    (walked : query.Walked right (start + left.eventCount) place path previous value)
    (more : ∀ scope, context.get scope ≠ none → path.get scope ≠ none)
    (chosen : env (routeScope start left right) = .right) :
    value.denote query.source env holders = query.source.holdersAt env holders
      (min place.cut (start + (Source.route left right resolver).eventCount)) place.key := by
  rw [← holdersAt_right window chosen] at denotes
  rw [Source.eventCount, ← Nat.add_assoc]
  exact walked.2 env holders solves (window.route_right chosen) agrees
    (fun scope mem low high =>
      more scope (closes scope (mem_cons_of_mem _ (mem_append_right _ mem)) low high))
    denotes

end Arms

theorem walks_route (wellFormed : query.WellFormed) (leftWalks : query.Walks left)
    (rightWalks : query.Walks right) (resolver : Option UInt16) :
    query.Walks (.route left right resolver) := by
  refine walks_of_active fun start place previous context collected skip => ?_
  have active : start < place.cut := by omega
  rw [after, if_neg (not_skip skip)]
  dsimp only
  cases selected : selectedArm context (routeScope start left right) place.cut with
  | some arm =>
    cases arm with
    | left =>
      obtain ⟨value, isValue, walked⟩ := leftWalks start place previous context collected
      refine ⟨value, isValue, walked.1.imp_right (·.route_left selected), ?_⟩
      intro env holders solves window agrees closes denotes
      exact walked.denotes_left solves window agrees closes denotes (fun _ => id)
        (chosen_of_selectedArm agrees closes mem_cons_self active selected)
    | right =>
      obtain ⟨value, isValue, walked⟩ :=
        rightWalks (start + left.eventCount) place previous context collected
      refine ⟨value, isValue, walked.1.imp_right (·.route_right selected), ?_⟩
      intro env holders solves window agrees closes denotes
      exact walked.denotes_right solves window agrees closes denotes (fun _ => id)
        (chosen_of_selectedArm agrees closes mem_cons_self active selected)
  | none =>
    obtain ⟨isOpen, ended⟩ := selectedArm_eq_none selected
    obtain ⟨leftValue, isLeft, leftWalked⟩ := leftWalks start place previous
      (context.select ⟨routeScope start left right, .left⟩) collected
    obtain ⟨rightValue, isRight, rightWalked⟩ := rightWalks (start + left.eventCount) place
      previous (context.select ⟨routeScope start left right, .right⟩) collected
    obtain ⟨value, isValue, merged⟩ := merge_spec wellFormed place.key (routeScope start left right)
      (leftWalked.collected collected) (rightWalked.collected collected)
    refine ⟨value, by simp only [isLeft, isRight, Run.bind_ok, isValue], .inr ?_, ?_⟩
    · rcases merged with rfl | ⟨atom, rfl, atomCollected, _⟩
      · exact ⟨rfl, mem_cons_self, isOpen, ended, Context.reaches_routeScope isOpen⟩
      · exact atomCollected
    · intro env holders solves window agrees closes denotes
      have stop : min place.cut (start + (Source.route left right resolver).eventCount) =
          (routeScope start left right).stop := by
        simp only [routeScope, Source.eventCount] at ended ⊢
        omega
      rcases merged with rfl | ⟨atom, rfl, _, same⟩
      · rw [stop]
        rfl
      · obtain ⟨leftSame, rightSame⟩ := same holders solves env
        cases chosen : env (routeScope start left right) with
        | left =>
          exact leftSame.symm.trans (leftWalked.denotes_left solves window (agrees.select chosen)
            closes denotes (fun _ => Context.get_select_ne_none _) chosen)
        | right =>
          exact rightSame.symm.trans (rightWalked.denotes_right solves window
            (agrees.select chosen) closes denotes (fun _ => Context.get_select_ne_none _) chosen)

theorem walks (wellFormed : query.WellFormed) (source : Source) : query.Walks source := by
  induction source with
  | send message => exact walks_send message
  | seq left right hypLeft hypRight => exact walks_seq hypLeft hypRight
  | par left right hypLeft hypRight => exact walks_seq hypLeft hypRight
  | route left right resolver hypLeft hypRight =>
    exact walks_route wellFormed hypLeft hypRight resolver
  | roll body hypBody =>
    refine walks_of_active fun start place previous context collected skip => ?_
    rw [after, if_neg (not_skip skip)]
    exact hypBody start place previous context collected

/-! ### Whole queries -/

/-- What a query may answer: the holder, on every assignment that agrees with the path, or a
route that the path leaves open and that ends in front of the cut. -/
def Answers (query : Query) (place : At) (context : Context) : Evaluation → Prop
  | .atom atom => query.Collected atom ∧
      (context.Closes query.source 0 place.cut → ∀ holders, query.Solves holders →
        ∀ assignment, context.Agrees assignment →
          atom.denote holders = query.source.holdersAt assignment holders place.cut place.key)
  | .choice scope => scope ∈ query.source.routes 0 ∧ context.get scope = none ∧
      scope.stop ≤ place.cut ∧ context.Reaches query.source 0 scope

/-- The value of a whole walk denotes the holder in front of the cut. -/
theorem Walked.denotes_root
    (walked : query.Walked query.source 0 place context (.atom (.initial place.key)) value)
    (solves : query.Solves holders) (closes : context.Closes query.source 0 place.cut)
    (agrees : context.Agrees env) : value.denote query.source env holders =
      query.source.holdersAt env holders place.cut place.key := by
  rw [walked.2 env holders solves (Source.window_root query.source env) agrees closes
    (by simp [Source.holdersAt, Value.denote, Atom.denote]), Nat.zero_add, Source.holdersAt_min]

/-- A query that the walk refers back to is closed as well: its position lies in no open route. -/
theorem Produced.closes {earlier : At}
    (produced : query.Produced query.source 0 place context (.before earlier))
    (closes : context.Closes query.source 0 place.cut) :
    context.Closes query.source 0 earlier.cut := by
  intro scope mem low high isOpen
  obtain ⟨_, _, below, openRoutes⟩ := produced
  have around := openRoutes scope mem isOpen (by omega) high
  exact closes scope mem (by omega) around isOpen

/-- With more fuel than the position, a query answers. -/
theorem ownerFuel_answers (wellFormed : query.WellFormed) (fuel : Nat) (place : At)
    (context : Context) (enough : place.cut < fuel) :
    ∃ evaluation, query.ownerFuel fuel place context = .ok evaluation ∧
      query.Answers place context evaluation := by
  induction fuel generalizing place with
  | zero => omega
  | succ fuel hyp =>
    cases delegated : query.isDelegated place.key with
    | false =>
      refine ⟨.atom (.actor place.key.role), by simp [ownerFuel, delegated], trivial, ?_⟩
      intro _ holders solves env _
      exact (holdersAt_static wellFormed solves env place.cut delegated).symm
    | true =>
      have collected : query.ValueCollected (.atom (.initial place.key)) := by
        rintro _ ⟨⟩
        exact delegated
      obtain ⟨value, isValue, walked⟩ :=
        walks wellFormed query.source 0 place (.atom (.initial place.key)) context collected
      have produced : query.Produced query.source 0 place context value := by
        rcases walked.1 with rfl | produced
        · exact delegated
        · exact produced
      have unfolded : query.ownerFuel (fuel + 1) place context =
          query.evaluate (query.ownerFuel fuel) value context := by
        simp [ownerFuel, delegated, isValue]
      rw [unfolded]
      cases value with
      | atom atom =>
        obtain ⟨normal, isNormal, normalCollected, same⟩ := normalize_spec wellFormed produced
        refine ⟨.atom normal, by simp [evaluate, isNormal], normalCollected, ?_⟩
        intro closes holders solves env agrees
        rw [same holders solves.satisfies]
        exact walked.denotes_root solves closes agrees
      | before earlier =>
        have below : earlier.cut < place.cut := produced.2.2.1
        obtain ⟨evaluation, isEvaluation, answers⟩ := hyp earlier (by omega)
        refine ⟨evaluation, isEvaluation, ?_⟩
        cases evaluation with
        | atom atom =>
          refine ⟨answers.1, ?_⟩
          intro closes holders solves env agrees
          rw [answers.2 (produced.closes closes) holders solves env agrees]
          exact walked.denotes_root solves closes agrees
        | choice scope =>
          obtain ⟨mem, isOpen, ended, reaches⟩ := answers
          exact ⟨mem, isOpen, by omega, reaches⟩
      | choice key scope =>
        obtain ⟨_, mem, isOpen, ended, reaches⟩ := produced
        exact ⟨.choice scope, by simp [evaluate, isOpen], mem, isOpen, ended, reaches⟩

/-- Every query answers. -/
theorem owner_answers (wellFormed : query.WellFormed) (place : At) (context : Context) :
    ∃ evaluation, query.owner place context = .ok evaluation ∧
      query.Answers place context evaluation :=
  ownerFuel_answers wellFormed (place.cut + 1) place context (Nat.lt_succ_self _)


end Query

end Hibana
