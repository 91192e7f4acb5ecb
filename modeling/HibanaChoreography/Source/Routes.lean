/-
This file gives a source tree its executions.

A route is named by the event positions of its two arms. A complete route
assignment picks one arm of every route, and the events present on it are the
messages met on the way down, in source order. Positions are global: a subtree
is always read at the position of its first event.
-/

import HibanaChoreography.Source.Tree
import Mathlib.Data.List.Basic
import Mathlib.Data.List.Nodup

namespace Hibana

open List

/-- The source scope of a route: its first event, the first event of its right arm, and the
first event behind it. A source with more than `u16::MAX` events is refused before any scope
is formed, so the narrowing to `u16` loses nothing. -/
structure Scope where
  start : Nat
  split : Nat
  stop : Nat
  deriving DecidableEq, Repr

inductive Arm where
  | left
  | right
  deriving DecidableEq, Repr

/-- One route decision. -/
structure Selection where
  scope : Scope
  arm : Arm
  deriving DecidableEq, Repr

/-- A complete route assignment. -/
abbrev Assignment := Scope → Arm

/-- The arm of a scope on which a position lies. -/
def Scope.armAt (scope : Scope) (position : Nat) : Arm :=
  if position < scope.split then .left else .right

theorem Scope.armAt_left (scope : Scope) {position : Nat} (inLeft : position < scope.split) :
    scope.armAt position = .left :=
  if_pos inLeft

theorem Scope.armAt_right (scope : Scope) {position : Nat} (inRight : scope.split ≤ position) :
    scope.armAt position = .right :=
  if_neg (Nat.not_lt.mpr inRight)

/-- The positions from `start` to `stop` lie in an arm of the route. -/
def Scope.Holds (route : Scope) (arm : Arm) (start stop : Nat) : Prop :=
  match arm with
  | .left => route.start ≤ start ∧ stop ≤ route.split
  | .right => route.split ≤ start ∧ stop ≤ route.stop

instance (route : Scope) (arm : Arm) (start stop : Nat) : Decidable (route.Holds arm start stop) :=
  match arm with
  | .left => inferInstanceAs (Decidable (_ ∧ _))
  | .right => inferInstanceAs (Decidable (_ ∧ _))

theorem Scope.Holds.mono {route : Scope} {arm : Arm} {start stop inStart inStop : Nat}
    (holds : route.Holds arm start stop) (lower : start ≤ inStart) (upper : inStop ≤ stop) :
    route.Holds arm inStart inStop := by
  cases arm <;> exact ⟨Nat.le_trans holds.1 lower, Nat.le_trans upper holds.2⟩

/-- The scope of the route with these arms whose first event is at `start`. -/
def routeScope (start : Nat) (left right : Source) : Scope where
  start := start
  split := start + left.eventCount
  stop := start + left.eventCount + right.eventCount

namespace Source

theorem eventCount_pos (source : Source) : 0 < source.eventCount := by
  induction source with
  | send message => exact Nat.one_pos
  | seq left right hypLeft _ | par left right hypLeft _
  | route left right _ hypLeft _ =>
    exact Nat.add_pos_left hypLeft _
  | roll body hypBody => exact hypBody

variable {source left right : Source} {start : Nat} {env : Assignment}
  {event : Nat × Message} {resolver : Option UInt16}

theorem messageAt_lt {event : Nat} {message : Message}
    (isMessage : source.messageAt event = some message) : event < source.eventCount := by
  induction source generalizing event with
  | send sent =>
    rw [messageAt] at isMessage
    split at isMessage
    · rename_i isFirst
      rw [isFirst]
      exact Nat.one_pos
    · cases isMessage
  | seq left right hypLeft hypRight | par left right hypLeft hypRight
  | route left right _ hypLeft hypRight =>
    rw [messageAt] at isMessage
    rw [eventCount]
    split at isMessage
    · exact Nat.lt_add_right _ (hypLeft isMessage)
    · have inRight := hypRight isMessage
      omega
  | roll body hypBody => exact hypBody isMessage

theorem exists_messageAt {event : Nat} (inside : event < source.eventCount) :
    ∃ message, source.messageAt event = some message := by
  induction source generalizing event with
  | send message => exact ⟨message, if_pos (Nat.lt_one_iff.mp inside)⟩
  | seq left right hypLeft hypRight | par left right hypLeft hypRight
  | route left right _ hypLeft hypRight =>
    rw [eventCount] at inside
    rw [messageAt]
    split
    · rename_i inLeft
      exact hypLeft inLeft
    · exact hypRight (by omega)
  | roll body hypBody => exact hypBody inside

theorem length_messages (source : Source) : source.messages.length = source.eventCount := by
  induction source with
  | send message => rfl
  | seq left right hypLeft hypRight | par left right hypLeft hypRight
  | route left right _ hypLeft hypRight =>
    rw [messages, length_append, hypLeft, hypRight, eventCount]
  | roll body hypBody => exact hypBody

theorem getElem?_messages (source : Source) (event : Nat) :
    source.messages[event]? = source.messageAt event := by
  induction source generalizing event with
  | send message =>
    rw [messages, messageAt]
    cases event <;> rfl
  | seq left right hypLeft hypRight | par left right hypLeft hypRight
  | route left right _ hypLeft hypRight =>
    rw [messages, messageAt, getElem?_append, length_messages, hypLeft, hypRight]
  | roll body hypBody => exact hypBody event

/-- The scopes of the routes of a source, in preorder. -/
def routes : Source → Nat → List Scope
  | send _, _ => []
  | seq left right, start | par left right, start =>
    left.routes start ++ right.routes (start + left.eventCount)
  | route left right _, start =>
    routeScope start left right ::
      (left.routes start ++ right.routes (start + left.eventCount))
  | roll body, start => body.routes start

/-- The events present on an assignment, in source order, each with its position. -/
def presentEvents : Source → Nat → Assignment → List (Nat × Message)
  | send message, start, _ => [(start, message)]
  | seq left right, start, assignment | par left right, start, assignment =>
    left.presentEvents start assignment ++
      right.presentEvents (start + left.eventCount) assignment
  | route left right _, start, assignment =>
    match assignment (routeScope start left right) with
    | .left => left.presentEvents start assignment
    | .right => right.presentEvents (start + left.eventCount) assignment
  | roll body, start, assignment => body.presentEvents start assignment

/-- An event is present on an assignment when every route around it takes its arm. -/
def Present (source : Source) (assignment : Assignment) (event : Nat) : Prop :=
  event ∈ (source.presentEvents 0 assignment).map Prod.fst

instance (source : Source) (assignment : Assignment) (event : Nat) :
    Decidable (source.Present assignment event) :=
  inferInstanceAs (Decidable (event ∈ (source.presentEvents 0 assignment).map Prod.fst))

attribute [local simp] routes presentEvents

/-! ### Positions of the routes of a subtree -/

theorem routes_bounds {scope : Scope} (mem : scope ∈ source.routes start) :
    start ≤ scope.start ∧ scope.start < scope.split ∧ scope.split < scope.stop ∧
      scope.stop ≤ start + source.eventCount := by
  induction source generalizing start with
  | send message => cases mem
  | seq left right hypLeft hypRight | par left right hypLeft hypRight =>
    simp only [routes, mem_append] at mem
    simp only [eventCount]
    rcases mem with inLeft | inRight
    · have bounds := hypLeft inLeft
      omega
    · have bounds := hypRight inRight
      omega
  | route left right resolver hypLeft hypRight =>
    simp only [routes, mem_cons, mem_append] at mem
    simp only [eventCount]
    rcases mem with rfl | inLeft | inRight
    · have leftPos := left.eventCount_pos
      have rightPos := right.eventCount_pos
      simp only [routeScope]
      omega
    · have bounds := hypLeft inLeft
      omega
    · have bounds := hypRight inRight
      omega
  | roll body hypBody => exact hypBody mem

/-- A route is not a route of its own left arm. -/
theorem routeScope_notMem_left (start : Nat) (left right : Source) :
    routeScope start left right ∉ left.routes start := by
  intro mem
  have bounds := routes_bounds mem
  simp only [routeScope] at bounds
  omega

/-- A route is not a route of its own right arm. -/
theorem routeScope_notMem_right (start : Nat) (left right : Source) :
    routeScope start left right ∉ right.routes (start + left.eventCount) := by
  intro mem
  have bounds := routes_bounds mem
  simp only [routeScope] at bounds
  omega

/-! ### The events present on an assignment -/

theorem presentEvents_bounds (mem : event ∈ source.presentEvents start env) :
    start ≤ event.1 ∧ event.1 < start + source.eventCount := by
  induction source generalizing start with
  | send message =>
    simp only [presentEvents, mem_singleton] at mem
    subst mem
    simp only [eventCount]
    omega
  | seq left right hypLeft hypRight | par left right hypLeft hypRight =>
    simp only [presentEvents, mem_append] at mem
    simp only [eventCount]
    rcases mem with inLeft | inRight
    · have bounds := hypLeft inLeft
      omega
    · have bounds := hypRight inRight
      omega
  | route left right resolver hypLeft hypRight =>
    simp only [presentEvents] at mem
    simp only [eventCount]
    split at mem
    · have bounds := hypLeft mem
      omega
    · have bounds := hypRight mem
      omega
  | roll body hypBody => exact hypBody mem

/-- The present events are listed in increasing source position. -/
theorem presentEvents_sorted (source : Source) (start : Nat) (env : Assignment) :
    (source.presentEvents start env).Pairwise fun first second => first.1 < second.1 := by
  induction source generalizing start with
  | send message => exact pairwise_singleton _ _
  | seq left right hypLeft hypRight | par left right hypLeft hypRight =>
    refine pairwise_append.mpr ⟨hypLeft _, hypRight _, ?_⟩
    intro first inLeft second inRight
    have leftBounds := presentEvents_bounds inLeft
    have rightBounds := presentEvents_bounds inRight
    omega
  | route left right resolver hypLeft hypRight =>
    simp only [presentEvents]
    split
    · exact hypLeft _
    · exact hypRight _
  | roll body hypBody => exact hypBody _

/-- Only the arms of the source's own routes matter. -/
theorem presentEvents_congr {first second : Assignment}
    (agree : ∀ scope ∈ source.routes start, first scope = second scope) :
    source.presentEvents start first = source.presentEvents start second := by
  induction source generalizing start with
  | send message => rfl
  | seq left right hypLeft hypRight | par left right hypLeft hypRight =>
    simp only [routes, mem_append] at agree
    simp only [presentEvents]
    rw [hypLeft fun scope mem => agree scope (.inl mem),
      hypRight fun scope mem => agree scope (.inr mem)]
  | route left right resolver hypLeft hypRight =>
    simp only [routes, mem_cons, mem_append] at agree
    simp only [presentEvents]
    rw [agree _ (.inl rfl), hypLeft fun scope mem => agree scope (.inr (.inl mem)),
      hypRight fun scope mem => agree scope (.inr (.inr mem))]
  | roll body hypBody => exact hypBody agree

/-- The message at a present position is the message the source has there. -/
theorem messageAt_of_mem_presentEvents (mem : event ∈ source.presentEvents start env) :
    source.messageAt (event.1 - start) = some event.2 := by
  induction source generalizing start with
  | send message =>
    simp only [presentEvents, mem_singleton] at mem
    subst mem
    simp [messageAt]
  | seq left right hypLeft hypRight | par left right hypLeft hypRight =>
    simp only [presentEvents, mem_append] at mem
    simp only [messageAt]
    rcases mem with inLeft | inRight
    · have bounds := presentEvents_bounds inLeft
      rw [if_pos (by omega), hypLeft inLeft]
    · have bounds := presentEvents_bounds inRight
      rw [if_neg (by omega), Nat.sub_sub, hypRight inRight]
  | route left right resolver hypLeft hypRight =>
    simp only [presentEvents] at mem
    simp only [messageAt]
    split at mem
    · have bounds := presentEvents_bounds mem
      rw [if_pos (by omega), hypLeft mem]
    · have bounds := presentEvents_bounds mem
      rw [if_neg (by omega), Nat.sub_sub, hypRight mem]
  | roll body hypBody => exact hypBody mem

/-- The positions of the events present on an assignment. -/
def positions (source : Source) (start : Nat) (assignment : Assignment) : List Nat :=
  (source.presentEvents start assignment).map Prod.fst

theorem positions_bounds {position : Nat} (mem : position ∈ source.positions start env) :
    start ≤ position ∧ position < start + source.eventCount := by
  obtain ⟨event, isPresent, rfl⟩ := mem_map.mp mem
  exact presentEvents_bounds isPresent

theorem positions_seq (left right : Source) (start : Nat) (env : Assignment) :
    (seq left right).positions start env = left.positions start env ++
        right.positions (start + left.eventCount) env :=
  map_append

theorem mem_positions_seq_left {position : Nat}
    (mem : position ∈ (seq left right).positions start env)
    (inside : position < start + left.eventCount) : position ∈ left.positions start env := by
  rw [positions_seq, mem_append] at mem
  refine mem.resolve_right fun inRight => ?_
  have bounds := positions_bounds inRight
  omega

theorem mem_positions_seq_right {position : Nat}
    (mem : position ∈ (seq left right).positions start env)
    (inside : start + left.eventCount ≤ position) :
    position ∈ right.positions (start + left.eventCount) env := by
  rw [positions_seq, mem_append] at mem
  refine mem.resolve_left fun inLeft => ?_
  have bounds := positions_bounds inLeft
  omega

theorem presentEvents_route_left (chosen : env (routeScope start left right) = .left) :
    (route left right resolver).presentEvents start env = left.presentEvents start env := by
  simp only [presentEvents, chosen]

theorem presentEvents_route_right (chosen : env (routeScope start left right) = .right) :
    (route left right resolver).presentEvents start env =
      right.presentEvents (start + left.eventCount) env := by
  simp only [presentEvents, chosen]

theorem positions_route_left (chosen : env (routeScope start left right) = .left) :
    (route left right resolver).positions start env = left.positions start env := by
  simp only [positions, presentEvents, chosen]

theorem positions_route_right (chosen : env (routeScope start left right) = .right) :
    (route left right resolver).positions start env =
      right.positions (start + left.eventCount) env := by
  simp only [positions, presentEvents, chosen]

/-- A present event of the left arm is on the left arm. -/
theorem mem_positions_route_left {position : Nat}
    (mem : position ∈ (route left right resolver).positions start env)
    (inside : position < start + left.eventCount) :
    env (routeScope start left right) = .left ∧ position ∈ left.positions start env := by
  cases chosen : env (routeScope start left right) with
  | left =>
    rw [positions_route_left chosen] at mem
    exact ⟨rfl, mem⟩
  | right =>
    rw [positions_route_right chosen] at mem
    have bounds := positions_bounds mem
    omega

theorem mem_positions_route_right {position : Nat}
    (mem : position ∈ (route left right resolver).positions start env)
    (inside : start + left.eventCount ≤ position) :
    env (routeScope start left right) = .right ∧
      position ∈ right.positions (start + left.eventCount) env := by
  cases chosen : env (routeScope start left right) with
  | right =>
    rw [positions_route_right chosen] at mem
    exact ⟨rfl, mem⟩
  | left =>
    rw [positions_route_left chosen] at mem
    have bounds := positions_bounds mem
    omega

/-- Present events carry messages of the source. -/
theorem mem_messages_of_mem_presentEvents (mem : event ∈ source.presentEvents start env) :
    event.2 ∈ source.messages := by
  induction source generalizing start with
  | send message =>
    obtain rfl := mem_singleton.mp mem
    exact mem_singleton_self _
  | seq left right hypLeft hypRight | par left right hypLeft hypRight =>
    exact mem_append.mpr ((mem_append.mp mem).imp hypLeft hypRight)
  | route left right resolver hypLeft hypRight =>
    simp only [presentEvents] at mem
    split at mem
    · exact mem_append_left _ (hypLeft mem)
    · exact mem_append_right _ (hypRight mem)
  | roll body hypBody => exact hypBody mem

theorem presentEvents_ne_nil (source : Source) (start : Nat) (env : Assignment) :
    source.presentEvents start env ≠ [] := by
  induction source generalizing start with
  | send message => exact cons_ne_nil _ _
  | seq left right hypLeft _ | par left right hypLeft _ =>
    exact append_ne_nil_of_left_ne_nil (hypLeft start) _
  | route left right resolver hypLeft hypRight =>
    cases chosen : env (routeScope start left right) with
    | left =>
      rw [presentEvents_route_left chosen]
      exact hypLeft _
    | right =>
      rw [presentEvents_route_right chosen]
      exact hypRight _
  | roll body hypBody => exact hypBody start

/-- Every subtree has a first present event. -/
theorem exists_first_position (source : Source) (start : Nat) (env : Assignment) :
    ∃ first ∈ source.positions start env, ∀ other ∈ source.positions start env, first ≤ other := by
  have sorted := source.presentEvents_sorted start env
  unfold positions
  cases events : source.presentEvents start env with
  | nil => exact absurd events (source.presentEvents_ne_nil start env)
  | cons first rest =>
    rw [events] at sorted
    refine ⟨first.1, mem_cons_self, fun other mem => ?_⟩
    rcases mem_cons.mp mem with rfl | inRest
    · exact le_rfl
    · obtain ⟨event, inEvents, rfl⟩ := mem_map.mp inRest
      exact Nat.le_of_lt ((pairwise_cons.mp sorted).1 event inEvents)

/-! ### Parts of a subtree -/

/-- On this assignment the present events of a part are present in the whole, and their order in
the part is their order in the whole. -/
structure PartOf (part : Source) (partStart : Nat) (source : Source) (start : Nat)
    (assignment : Assignment) : Prop where
  present : ∀ event ∈ part.presentEvents partStart assignment,
    event ∈ source.presentEvents start assignment
  ordered : ∀ first second, partStart ≤ first → second < partStart + part.eventCount →
    part.before (first - partStart) (second - partStart) = true →
    source.before (first - start) (second - start) = true

namespace PartOf

variable {left right body : Source} {start : Nat} {env : Assignment}
  {resolver : Option UInt16}

theorem seq_left : PartOf left start (.seq left right) start env where
  present := fun _ => mem_append_left _
  ordered := fun first second _ _ isBefore => by
    have ordered := lt_of_before isBefore
    rw [before_seq_left ordered (by omega), isBefore]

theorem seq_right : PartOf right (start + left.eventCount) (.seq left right) start env where
  present := fun _ => mem_append_right _
  ordered := fun first second _ _ isBefore => by
    have ordered := lt_of_before isBefore
    rw [before_seq_right (by omega) (by omega), Nat.sub_sub, Nat.sub_sub, isBefore]

theorem par_left : PartOf left start (.par left right) start env where
  present := fun _ => mem_append_left _
  ordered := fun first second _ _ isBefore => by
    have ordered := lt_of_before isBefore
    rw [before_par_left ordered (by omega), isBefore]

theorem par_right : PartOf right (start + left.eventCount) (.par left right) start env where
  present := fun _ => mem_append_right _
  ordered := fun first second _ _ isBefore => by
    have ordered := lt_of_before isBefore
    rw [before_par_right (by omega) (by omega), Nat.sub_sub, Nat.sub_sub, isBefore]

theorem route_left (chosen : env (routeScope start left right) = .left) :
    PartOf left start (.route left right resolver) start env where
  present := fun event mem => by rwa [presentEvents_route_left chosen]
  ordered := fun first second _ _ isBefore => by
    have ordered := lt_of_before isBefore
    rw [before_route_left ordered (by omega), isBefore]

theorem route_right (chosen : env (routeScope start left right) = .right) :
    PartOf right (start + left.eventCount) (.route left right resolver) start env where
  present := fun event mem => by rwa [presentEvents_route_right chosen]
  ordered := fun first second _ _ isBefore => by
    have ordered := lt_of_before isBefore
    rw [before_route_right (by omega) (by omega), Nat.sub_sub, Nat.sub_sub, isBefore]

theorem roll_body : PartOf body start (.roll body) start env where
  present := fun _ => id
  ordered := fun first second _ _ isBefore => by rw [before_roll, isBefore]

end PartOf

end Source

end Hibana
