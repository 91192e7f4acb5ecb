/-
This file says which sources ownership validation accepts.

A source conforms when its messages are well formed, its parallel arms do not
touch each other's transferred endpoints, and exactly one assignment of initial
owners makes every transfer come from the holder and every roll body end as it
began, on every complete route assignment. The walk of validation adds these
conditions node by node, so it accepts exactly the conforming sources and its
forest holds exactly that assignment.
-/

import HibanaChoreography.Ownership.Solve

namespace Hibana

open Outcome Constraint List

/-! ### The conditions -/

/-- A self-message carries only the unit value, and no endpoint carries itself. -/
def Message.WellFormed (message : Message) : Prop :=
  (message.fromKey = message.toKey → message.payload = .wire 0) ∧
    ∀ key, message.payload = .endpoint key → key ≠ message.fromKey ∧ key ≠ message.toKey

namespace Source

def MessagesWellFormed (source : Source) : Prop :=
  ∀ message ∈ source.messages, message.WellFormed

/-- No parallel node transfers in one arm an endpoint that the other arm uses. -/
def ParallelSeparated : Source → Prop
  | send _ => True
  | seq left right | route left right _ => left.ParallelSeparated ∧ right.ParallelSeparated
  | par left right =>
    (∀ key, ¬ (left.transfers key = true ∧ right.uses key = true) ∧
      ¬ (right.transfers key = true ∧ left.uses key = true)) ∧
      left.ParallelSeparated ∧ right.ParallelSeparated
  | roll body => body.ParallelSeparated

/-- On this assignment every transfer of a subtree comes from the holder of the sending
endpoint, and every roll body ends with the holders it started with. -/
def Consistent (root : Source) (assignment : Assignment) (initial : Holders) :
    Source → Nat → Prop
  | send message, start => ∀ key, message.payload = .endpoint key →
      root.holdersAt assignment initial start key =
        root.holdersAt assignment initial start message.fromKey
  | seq left right, start | par left right, start =>
    Consistent root assignment initial left start ∧
      Consistent root assignment initial right (start + left.eventCount)
  | route left right _, start =>
    match assignment (routeScope start left right) with
    | .left => Consistent root assignment initial left start
    | .right => Consistent root assignment initial right (start + left.eventCount)
  | roll body, start =>
    Consistent root assignment initial body start ∧ ∀ key, body.transfers key = true →
      root.holdersAt assignment initial start key =
        root.holdersAt assignment initial (start + body.eventCount) key

/-- An assignment of initial owners to the delegated endpoints that is consistent on every
complete route assignment. An endpoint that is never carried belongs to its own role. -/
structure SolvesOwnership (source : Source) (initial : Holders) : Prop where
  static : ∀ key, source.transfers key = false → initial key = key.role
  consistent : ∀ assignment, Consistent source assignment initial source 0

end Source

/-! ### Subtrees on a control path -/

/-- A subtree of the root at its position, on a path that has decided exactly the routes around
it. -/
structure Located (root : Source) (context : Context) (source : Source) (start : Nat) : Prop where
  window : ∀ assignment, context.Agrees assignment → root.Window assignment source start
  messages : ∀ message ∈ source.messages, message ∈ root.messages
  inner : ∀ scope ∈ source.routes start, scope ∈ root.routes 0
  isOpen : ∀ scope ∈ source.routes start, context.get scope = none
  outer : ∀ scope ∈ root.routes 0, scope ∈ source.routes start ∨ scope.stop ≤ start ∨
    start + source.eventCount ≤ scope.start ∨ context.get scope ≠ none
  decided : ∀ scope arm, context.get scope = some arm →
    scope ∈ root.routes 0 ∧ scope.Holds arm start (start + source.eventCount)

variable {source : Source}

namespace Located

variable {root left right body : Source} {context : Context} {start : Nat}

theorem of_root (root : Source) : Located root (Context.new []) root 0 where
  window := fun env _ => Source.window_root root env
  messages := fun _ => id
  inner := fun _ => id
  isOpen := fun _ _ => rfl
  outer := fun _ => .inl
  decided := by rintro _ _ ⟨⟩

theorem seq_left (located : Located root context (.seq left right) start) :
    Located root context left start where
  window := fun env agrees => (located.window env agrees).seq_left
  messages := fun message mem => located.messages message (mem_append_left _ mem)
  inner := fun scope mem => located.inner scope (mem_append_left _ mem)
  isOpen := fun scope mem => located.isOpen scope (mem_append_left _ mem)
  outer := by
    intro scope mem
    rcases located.outer scope mem with inside | before | behind | decided
    · refine (mem_append.mp inside).imp_right fun inRight => ?_
      exact .inr (.inl (Source.routes_bounds inRight).1)
    · exact .inr (.inl before)
    · simp only [Source.eventCount] at behind
      exact .inr (.inr (.inl (by omega)))
    · exact .inr (.inr (.inr decided))
  decided := by
    intro scope arm isDecided
    obtain ⟨mem, holds⟩ := located.decided scope arm isDecided
    exact ⟨mem, holds.mono le_rfl (by simp only [Source.eventCount]; omega)⟩

theorem seq_right (located : Located root context (.seq left right) start) :
    Located root context right (start + left.eventCount) where
  window := fun env agrees => (located.window env agrees).seq_right
  messages := fun message mem => located.messages message (mem_append_right _ mem)
  inner := fun scope mem => located.inner scope (mem_append_right _ mem)
  isOpen := fun scope mem => located.isOpen scope (mem_append_right _ mem)
  outer := by
    intro scope mem
    rcases located.outer scope mem with inside | before | behind | decided
    · rcases mem_append.mp inside with inLeft | inRight
      · exact .inr (.inl (Source.routes_bounds inLeft).2.2.2)
      · exact .inl inRight
    · exact .inr (.inl (by omega))
    · simp only [Source.eventCount] at behind
      exact .inr (.inr (.inl (by omega)))
    · exact .inr (.inr (.inr decided))
  decided := by
    intro scope arm isDecided
    obtain ⟨mem, holds⟩ := located.decided scope arm isDecided
    exact ⟨mem, holds.mono (by omega) (by simp only [Source.eventCount]; omega)⟩

theorem par_left (located : Located root context (.par left right) start) :
    Located root context left start :=
  seq_left ⟨located.window, located.messages, located.inner, located.isOpen, located.outer,
    located.decided⟩

theorem par_right (located : Located root context (.par left right) start) :
    Located root context right (start + left.eventCount) :=
  seq_right ⟨located.window, located.messages, located.inner, located.isOpen, located.outer,
    located.decided⟩

theorem roll_body (located : Located root context (.roll body) start) :
    Located root context body start :=
  ⟨located.window, located.messages, located.inner, located.isOpen, located.outer, located.decided⟩

variable {resolver : Option UInt16}

theorem scope_open (located : Located root context (.route left right resolver) start) :
    context.get (routeScope start left right) = none :=
  located.isOpen _ mem_cons_self

theorem route_left (located : Located root context (.route left right resolver) start) :
    Located root (context.select ⟨routeScope start left right, .left⟩) left start where
  window := by
    intro env agrees
    obtain ⟨outer, chosen⟩ := (Context.agrees_select_iff located.scope_open _ _).mp agrees
    exact (located.window env outer).route_left chosen
  messages := fun message mem => located.messages message (mem_append_left _ mem)
  inner := fun scope mem =>
    located.inner scope (mem_cons_of_mem _ (mem_append_left _ mem))
  isOpen := by
    intro scope mem
    have ne : routeScope start left right ≠ scope := by
      rintro rfl
      exact Source.routeScope_notMem_left start left right mem
    rw [Context.get_select, if_neg ne]
    exact located.isOpen scope (mem_cons_of_mem _ (mem_append_left _ mem))
  outer := by
    intro scope mem
    rcases located.outer scope mem with inside | before | behind | decided
    · rcases mem_cons.mp inside with rfl | inArms
      · refine .inr (.inr (.inr ?_))
        rw [Context.get_select_self]
        exact Option.some_ne_none _
      · refine (mem_append.mp inArms).imp_right fun inRight => ?_
        exact .inr (.inl (Source.routes_bounds inRight).1)
    · exact .inr (.inl before)
    · simp only [Source.eventCount] at behind
      exact .inr (.inr (.inl (by omega)))
    · exact .inr (.inr (.inr (Context.get_select_ne_none _ decided)))
  decided := by
    intro scope arm isDecided
    rw [Context.get_select] at isDecided
    split at isDecided
    · rename_i same
      cases isDecided
      rw [← same]
      exact ⟨located.inner _ mem_cons_self, le_rfl, le_rfl⟩
    · obtain ⟨mem, holds⟩ := located.decided scope arm isDecided
      exact ⟨mem, holds.mono le_rfl (by simp only [Source.eventCount]; omega)⟩

theorem route_right (located : Located root context (.route left right resolver) start) :
    Located root (context.select ⟨routeScope start left right, .right⟩) right
      (start + left.eventCount) where
  window := by
    intro env agrees
    obtain ⟨outer, chosen⟩ := (Context.agrees_select_iff located.scope_open _ _).mp agrees
    exact (located.window env outer).route_right chosen
  messages := fun message mem => located.messages message (mem_append_right _ mem)
  inner := fun scope mem =>
    located.inner scope (mem_cons_of_mem _ (mem_append_right _ mem))
  isOpen := by
    intro scope mem
    have ne : routeScope start left right ≠ scope := by
      rintro rfl
      exact Source.routeScope_notMem_right start left right mem
    rw [Context.get_select, if_neg ne]
    exact located.isOpen scope (mem_cons_of_mem _ (mem_append_right _ mem))
  outer := by
    intro scope mem
    rcases located.outer scope mem with inside | before | behind | decided
    · rcases mem_cons.mp inside with rfl | inArms
      · refine .inr (.inr (.inr ?_))
        rw [Context.get_select_self]
        exact Option.some_ne_none _
      · rcases mem_append.mp inArms with inLeft | inRight
        · exact .inr (.inl (Source.routes_bounds inLeft).2.2.2)
        · exact .inl inRight
    · exact .inr (.inl (by omega))
    · simp only [Source.eventCount] at behind
      exact .inr (.inr (.inl (by omega)))
    · exact .inr (.inr (.inr (Context.get_select_ne_none _ decided)))
  decided := by
    intro scope arm isDecided
    rw [Context.get_select] at isDecided
    split at isDecided
    · rename_i same
      cases isDecided
      rw [← same]
      exact ⟨located.inner _ mem_cons_self, le_rfl, le_rfl⟩
    · obtain ⟨mem, holds⟩ := located.decided scope arm isDecided
      exact ⟨mem, holds.mono (by omega) (by simp only [Source.eventCount]; omega)⟩

/-- The path has decided every route around the first position of the subtree. -/
theorem closes_start (located : Located root context source start) :
    context.Closes root 0 start := by
  intro scope mem low high
  rcases located.outer scope mem with inside | before | behind | decided
  · have bounds := Source.routes_bounds inside
    omega
  · omega
  · have count := source.eventCount_pos
    omega
  · exact decided

/-- The path has decided every route around the position behind the subtree. -/
theorem closes_stop (located : Located root context source start) :
    context.Closes root 0 (start + source.eventCount) := by
  intro scope mem low high
  rcases located.outer scope mem with inside | before | behind | decided
  · have bounds := Source.routes_bounds inside
    omega
  · have count := source.eventCount_pos
    omega
  · omega
  · exact decided

end Located

/-! ### The walk of validation -/

namespace Scratch

variable {root : Source}

/-- What a visited subtree adds: its shape, and consistency on every assignment of the path. -/
def Conforms (root : Source) (context : Context) (source : Source) (start : Nat)
    (initial : Holders) : Prop :=
  source.MessagesWellFormed ∧ source.ParallelSeparated ∧
    ∀ assignment, context.Agrees assignment → Source.Consistent root assignment initial source start

/-- The scratch behind a visited subtree. -/
def Visited (root source : Source) (before after : Scratch) : Prop :=
  after.Valid root ∧ after.symbols = before.symbols ∧
    after.events = before.events ++ source.messages

variable {scratch : Scratch} {context : Context} {start : Nat} {initial : Holders}
  {left right : Source}

theorem Valid.push (valid : scratch.Valid root) (message : Message) :
    Valid root { scratch with events := scratch.events ++ [message] } :=
  ⟨valid.wellFormed, valid.distinct, valid.joined, valid.bound⟩

/-- Recording a message adds nothing to the equations. -/
theorem adds_push {post : Scratch → Prop} {condition : Holders → Prop} (message : Message)
    (holds : post { scratch with events := scratch.events ++ [message] })
    (free : ∀ holders, scratch.Models root holders → condition holders) :
    Adds (Models root) scratch post condition
      (.ok { scratch with events := scratch.events ++ [message] } : Checked Error Scratch) :=
  ⟨holds, fun holders => ⟨fun isModel => ⟨isModel, free holders isModel⟩, And.left⟩⟩

variable {message : Message}

theorem conforms_send :
    Conforms root context (.send message) start initial ↔
      message.WellFormed ∧ ∀ key, message.payload = .endpoint key →
        SameHolder root ⟨key, start⟩ ⟨message.fromKey, start⟩ context initial := by
  constructor
  · rintro ⟨wellFormed, _, consistent⟩
    refine ⟨wellFormed message (mem_singleton_self _), ?_⟩
    intro key carried env agrees
    exact consistent env agrees key carried
  · rintro ⟨wellFormed, same⟩
    refine ⟨?_, trivial, fun env agrees key carried => same key carried env agrees⟩
    intro other mem
    rw [mem_singleton.mp mem]
    exact wellFormed

theorem emit_adds {capacity : Nat} (valid : scratch.Valid root)
    (closes : context.Closes root 0 scratch.events.length)
    (room : scratch.events.length < capacity) :
    Adds (Models root) scratch (Visited root (.send message) scratch)
      (Conforms root context (.send message) scratch.events.length)
      (scratch.emit capacity root message context) := by
  have hasRoom : scratch.events.length ≠ capacity := Nat.ne_of_lt room
  have visited : ∀ reached, Keeps root scratch reached →
      Visited root (.send message) scratch
        { reached with events := reached.events ++ [message] } := by
    rintro reached ⟨reachedValid, symbols, events⟩
    exact ⟨reachedValid.push message, symbols, by rw [events]; rfl⟩
  unfold emit
  rw [if_neg hasRoom]
  by_cases selfMessage : message.fromKey = message.toKey ∧ message.payload ≠ .wire 0
  · rw [if_pos selfMessage]
    refine adds_refuse _ fun holders _ conforms => ?_
    exact selfMessage.2 ((conforms_send.mp conforms).1.1 selfMessage.1)
  · rw [if_neg selfMessage]
    have unit : message.fromKey = message.toKey → message.payload = .wire 0 := by
      intro same
      by_contra other
      exact selfMessage ⟨same, other⟩
    cases payload : message.payload with
    | wire schema =>
      refine adds_push message (visited scratch ⟨valid, rfl, rfl⟩) fun holders _ => ?_
      refine conforms_send.mpr ⟨⟨unit, ?_⟩, ?_⟩
      · intro key carried
        rw [payload] at carried
        cases carried
      · intro key carried
        rw [payload] at carried
        cases carried
    | endpoint key =>
      simp only
      by_cases carrier : key = message.fromKey ∨ key = message.toKey
      · rw [if_pos carrier]
        refine adds_refuse _ fun holders _ conforms => ?_
        obtain ⟨notFrom, notTo⟩ := (conforms_send.mp conforms).1.2 key payload
        exact carrier.elim notFrom notTo
      · rw [if_neg carrier]
        have equated := equate_decides valid ⟨key, scratch.events.length⟩
          ⟨message.fromKey, scratch.events.length⟩ context closes closes
        have recorded := equated.adds (⟨.conflictingInitialOwners, some key⟩ : Error)
          (Visited root (.send message) scratch) (fun _ => True)
          (fun reached kept => adds_push message (visited reached kept) fun _ _ => trivial)
        refine recorded.imp (fun _ => id) fun holders _ => ?_
        rw [and_true, conforms_send]
        constructor
        · intro same
          refine ⟨⟨unit, ?_⟩, ?_⟩
          · intro other carried
            rw [payload] at carried
            obtain rfl := Payload.endpoint.inj carried
            exact not_or.mp carrier
          · intro other carried
            rw [payload] at carried
            obtain rfl := Payload.endpoint.inj carried
            exact same
        · rintro ⟨_, same⟩
          exact same key payload

/-- The loop behind a roll adds one equation for every transferred endpoint of the table. -/
theorem equateEnds_adds (body : Source) {stop : Nat} (startCloses : context.Closes root 0 start)
    (stopCloses : context.Closes root 0 stop) (symbols : List Symbol) (valid : scratch.Valid root) :
    Adds (Models root) scratch (Keeps root scratch)
      (fun holders => ∀ symbol ∈ symbols, body.transfers symbol.key = true →
        SameHolder root ⟨symbol.key, start⟩ ⟨symbol.key, stop⟩ context holders)
      (equateEnds root body start stop context symbols scratch) := by
  induction symbols generalizing scratch with
  | nil =>
    refine adds_ok ⟨valid, rfl, rfl⟩ fun holders _ symbol mem => ?_
    cases mem
  | cons symbol symbols hyp =>
    unfold equateEnds
    by_cases transferred : body.transfers symbol.key = true
    · rw [if_pos transferred]
      have equated := equate_decides valid ⟨symbol.key, start⟩ ⟨symbol.key, stop⟩ context
        startCloses stopCloses
      have rest := equated.adds (⟨.rollChangesOwner, some symbol.key⟩ : Error)
        (Keeps root scratch)
        (fun holders => ∀ symbol ∈ symbols, body.transfers symbol.key = true →
          SameHolder root ⟨symbol.key, start⟩ ⟨symbol.key, stop⟩ context holders)
        (fun reached kept => (hyp kept.1).imp (fun _ => kept.trans) fun _ _ => Iff.rfl)
      refine rest.imp (fun _ => id) fun holders _ => ?_
      rw [forall_mem_cons]
      exact and_congr_left' ⟨fun same _ => same, fun same => same transferred⟩
    · rw [if_neg transferred]
      refine (hyp valid).imp (fun _ => id) fun holders _ => ?_
      rw [forall_mem_cons]
      exact ⟨fun same => ⟨fun isTransferred => absurd isTransferred transferred, same⟩, And.right⟩

/-- Every endpoint that a subtree transfers is in the table. -/
theorem exists_symbol (valid : scratch.Valid root) (located : Located root context source start)
    {key : EndpointKey} (transferred : source.transfers key = true) :
    ∃ symbol ∈ scratch.symbols, symbol.key = key := by
  obtain ⟨message, mem, carried⟩ := (Source.transfers_iff source key).mp transferred
  have delegated := valid.wellFormed.carried message (located.messages message mem) key carried
  obtain ⟨index, symbol, isIndex, isSymbol, _⟩ := Query.symbolIndex_of_isDelegated delegated
  obtain ⟨found, isFound, isKey⟩ := symbolIndex_spec isIndex
  exact ⟨found, mem_of_getElem? isFound, isKey⟩

theorem conforms_seq :
    Conforms root context (.seq left right) start initial ↔
      Conforms root context left start initial ∧
        Conforms root context right (start + left.eventCount) initial := by
  unfold Conforms Source.MessagesWellFormed
  simp only [Source.messages, forall_mem_append, Source.ParallelSeparated, Source.Consistent]
  constructor
  · rintro ⟨⟨leftMessages, rightMessages⟩, ⟨leftSeparated, rightSeparated⟩, consistent⟩
    exact ⟨⟨leftMessages, leftSeparated, fun env agrees => (consistent env agrees).1⟩,
      rightMessages, rightSeparated, fun env agrees => (consistent env agrees).2⟩
  · rintro ⟨⟨leftMessages, leftSeparated, leftConsistent⟩, rightMessages, rightSeparated,
      rightConsistent⟩
    exact ⟨⟨leftMessages, rightMessages⟩, ⟨leftSeparated, rightSeparated⟩, fun env agrees =>
      ⟨leftConsistent env agrees, rightConsistent env agrees⟩⟩

theorem conforms_par :
    Conforms root context (.par left right) start initial ↔
      (∀ key, ¬ (left.transfers key = true ∧ right.uses key = true) ∧
        ¬ (right.transfers key = true ∧ left.uses key = true)) ∧
      Conforms root context (.seq left right) start initial := by
  constructor
  · rintro ⟨messages, ⟨separated, inner⟩, consistent⟩
    exact ⟨separated, messages, inner, consistent⟩
  · rintro ⟨separated, messages, inner, consistent⟩
    exact ⟨messages, ⟨separated, inner⟩, consistent⟩

theorem conforms_route {resolver : Option UInt16}
    (isOpen : context.get (routeScope start left right) = none) :
    Conforms root context (.route left right resolver) start initial ↔
      Conforms root (context.select ⟨routeScope start left right, .left⟩) left start initial ∧
        Conforms root (context.select ⟨routeScope start left right, .right⟩) right
          (start + left.eventCount) initial := by
  unfold Conforms Source.MessagesWellFormed
  simp only [Source.messages, forall_mem_append, Source.ParallelSeparated,
    Context.agrees_select_iff isOpen]
  constructor
  · rintro ⟨⟨leftMessages, rightMessages⟩, ⟨leftSeparated, rightSeparated⟩, consistent⟩
    refine ⟨⟨leftMessages, leftSeparated, ?_⟩, rightMessages, rightSeparated, ?_⟩
    · rintro env ⟨agrees, chosen⟩
      have arm := consistent env agrees
      simpa only [Source.Consistent, chosen] using arm
    · rintro env ⟨agrees, chosen⟩
      have arm := consistent env agrees
      simpa only [Source.Consistent, chosen] using arm
  · rintro ⟨⟨leftMessages, leftSeparated, leftConsistent⟩, rightMessages, rightSeparated,
      rightConsistent⟩
    refine ⟨⟨leftMessages, rightMessages⟩, ⟨leftSeparated, rightSeparated⟩, ?_⟩
    intro env agrees
    cases chosen : env (routeScope start left right) with
    | left => simpa only [Source.Consistent, chosen] using leftConsistent env ⟨agrees, chosen⟩
    | right =>
      simpa only [Source.Consistent, chosen] using rightConsistent env ⟨agrees, chosen⟩

theorem conforms_roll {body : Source} :
    Conforms root context (.roll body) start initial ↔
      Conforms root context body start initial ∧ ∀ key, body.transfers key = true →
        SameHolder root ⟨key, start⟩ ⟨key, start + body.eventCount⟩ context initial := by
  constructor
  · rintro ⟨messages, separated, consistent⟩
    exact ⟨⟨messages, separated, fun env agrees => (consistent env agrees).1⟩,
      fun key transferred env agrees => (consistent env agrees).2 key transferred⟩
  · rintro ⟨⟨messages, separated, consistent⟩, ends⟩
    exact ⟨messages, separated, fun env agrees => ⟨consistent env agrees,
      fun key transferred => ends key transferred env agrees⟩⟩

theorem Visited.length {before after : Scratch} (visited : Visited root source before after) :
    after.events.length = before.events.length + source.eventCount := by
  rw [visited.2.2, length_append, Source.length_messages]

/-- No parallel conflict is found exactly when the arms are separated. -/
theorem find_parallelConflict (valid : scratch.Valid root)
    (located : Located root context (.par left right) start) :
    scratch.symbols.find? (parallelConflict left right) = none ↔
      ∀ key, ¬ (left.transfers key = true ∧ right.uses key = true) ∧
        ¬ (right.transfers key = true ∧ left.uses key = true) := by
  rw [find?_eq_none]
  have conflict : ∀ symbol, parallelConflict left right symbol = true ↔
      (left.transfers symbol.key = true ∧ right.uses symbol.key = true) ∨
        (right.transfers symbol.key = true ∧ left.uses symbol.key = true) := by
    intro symbol
    rw [parallelConflict, Bool.or_eq_true, Bool.and_eq_true, Bool.and_eq_true]
  constructor
  · intro none key
    refine ⟨fun clash => ?_, fun clash => ?_⟩
    · obtain ⟨symbol, mem, rfl⟩ := exists_symbol valid located.par_left clash.1
      exact none symbol mem ((conflict symbol).mpr (.inl clash))
    · obtain ⟨symbol, mem, rfl⟩ := exists_symbol valid located.par_right clash.1
      exact none symbol mem ((conflict symbol).mpr (.inr clash))
  · intro separated symbol _ found
    obtain ⟨first, second⟩ := separated symbol.key
    exact ((conflict symbol).mp found).elim first second

/-- What visiting a subtree does. -/
def VisitAdds (capacity : Nat) (root source : Source) : Prop :=
  ∀ (context : Context) (start : Nat) (scratch : Scratch), Located root context source start →
    scratch.Valid root → scratch.events.length = start → start + source.eventCount ≤ capacity →
    Adds (Models root) scratch (Visited root source scratch) (Conforms root context source start)
      (scratch.visit capacity root source context)

/-- Visiting two neighbours adds the conditions of both. -/
theorem visit_both {capacity : Nat} {both : Source} (leftAdds : VisitAdds capacity root left)
    (rightAdds : VisitAdds capacity root right)
    (count : both.eventCount = left.eventCount + right.eventCount)
    (messages : both.messages = left.messages ++ right.messages) {leftPath rightPath : Context}
    (leftLocated : Located root leftPath left start)
    (rightLocated : Located root rightPath right (start + left.eventCount))
    (valid : scratch.Valid root) (position : scratch.events.length = start)
    (room : start + both.eventCount ≤ capacity) :
    Adds (Models root) scratch (Visited root both scratch)
      (fun holders => Conforms root leftPath left start holders ∧
        Conforms root rightPath right (start + left.eventCount) holders)
      (scratch.visit capacity root left leftPath >>= fun reached =>
        reached.visit capacity root right rightPath) := by
  refine (leftAdds leftPath start scratch leftLocated valid position (by omega)).bind ?_
  intro reached visited
  have reachedPosition : reached.events.length = start + left.eventCount := by
    rw [visited.length, position]
  refine (rightAdds rightPath _ reached rightLocated visited.1 reachedPosition (by omega)).imp ?_
    fun _ _ => Iff.rfl
  rintro final ⟨finalValid, symbols, events⟩
  refine ⟨finalValid, symbols.trans visited.2.1, ?_⟩
  rw [events, visited.2.2, messages, append_assoc]

theorem visit_adds (capacity : Nat) (root source : Source) : VisitAdds capacity root source := by
  induction source with
  | send message =>
    intro context start scratch located valid position room
    subst position
    exact emit_adds valid located.closes_start (by simp only [Source.eventCount] at room; omega)
  | seq left right hypLeft hypRight =>
    intro context start scratch located valid position room
    refine (visit_both hypLeft hypRight rfl rfl located.seq_left located.seq_right valid
      position room).imp (fun _ => id) fun holders _ => ?_
    exact conforms_seq.symm
  | par left right hypLeft hypRight =>
    intro context start scratch located valid position room
    have separated := find_parallelConflict valid located
    unfold visit
    split
    · rename_i symbol found
      refine adds_refuse _ fun holders _ conforms => ?_
      rw [separated.mpr (conforms_par.mp conforms).1] at found
      cases found
    · rename_i none
      refine (visit_both hypLeft hypRight rfl rfl located.par_left located.par_right
        valid position room).imp (fun _ => id) fun holders _ => ?_
      rw [conforms_par, conforms_seq]
      exact ⟨fun both => ⟨separated.mp none, both⟩, And.right⟩
  | route left right resolver hypLeft hypRight =>
    intro context start scratch located valid position room
    subst position
    refine (visit_both hypLeft hypRight rfl rfl located.route_left located.route_right
      valid rfl room).imp (fun _ => id) fun holders _ => ?_
    exact (conforms_route located.scope_open).symm
  | roll body hypBody =>
    intro context start scratch located valid position room
    subst position
    have first := hypBody context _ scratch located.roll_body valid rfl room
    have ends : ∀ reached, Visited root body scratch reached →
        Adds (Models root) reached (Visited root (.roll body) scratch)
          (fun holders => ∀ key, body.transfers key = true →
            SameHolder root ⟨key, scratch.events.length⟩
              ⟨key, scratch.events.length + body.eventCount⟩ context holders)
          (equateEnds root body scratch.events.length reached.events.length context
            reached.symbols reached) := by
      intro reached visited
      rw [visited.length]
      refine (equateEnds_adds body located.closes_start located.closes_stop reached.symbols
        visited.1).imp ?_ fun holders _ => ?_
      · rintro final ⟨finalValid, symbols, events⟩
        exact ⟨finalValid, symbols.trans visited.2.1, events.trans visited.2.2⟩
      · constructor
        · intro same key transferred
          obtain ⟨symbol, mem, rfl⟩ := exists_symbol visited.1 located.roll_body transferred
          exact same symbol mem transferred
        · exact fun same symbol _ transferred => same symbol.key transferred
    exact (first.bind ends).imp (fun _ => id) fun holders _ => conforms_roll.symm

end Scratch

end Hibana
