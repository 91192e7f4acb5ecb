/-
This file proves that the check of knowledge of choice follows references correctly.

References point backwards, so following one ends and an equivalence shrinks with
every split. The answers are read on a complete assignment: two equivalent
references denote one actor on every assignment that agrees with the path, and a
message that is certain is a present event. No index leaves the image and no panic
of the checker is reached.
-/

import HibanaChoreography.Ownership.ActorImage
import HibanaChoreography.Ownership.Knowledge

namespace Hibana

open Outcome

namespace Checker

variable {root : Source} {image : ActorImage} {env : Assignment} {path : Context} {scope : Scope}
  {reference other event start partStart controller : Nat} {pair : ActorPair} {choice : ActorChoice}
  {source part : Source} {actor role : UInt8}

theorem pairAt_ok (isPair : image.events[event]? = some pair) : image.pairAt event = .ok pair := by
  simp only [ActorImage.pairAt, isPair]

theorem choiceAt_ok (message : String)
    (present : image.choices[reference - ActorRef.nodeBase]? = some choice) :
    image.choiceAt reference message = .ok choice := by
  simp only [ActorImage.choiceAt, present]

/-! ### Following references -/

/-- The references denote one actor on every assignment of the path. -/
def Same (image : ActorImage) (path : Context) (left right : Nat) : Prop :=
  ∀ env, path.Agrees env → ∀ actor,
    Denotes image.choices env left actor ↔ Denotes image.choices env right actor

theorem Same.refl (image : ActorImage) (path : Context) (reference : Nat) :
    Same image path reference reference :=
  fun _ _ _ => Iff.rfl

theorem Same.symm (same : Same image path reference other) : Same image path other reference :=
  fun env agrees actor => (same env agrees actor).symm

theorem Same.trans {next : Nat} (same : Same image path reference other)
    (more : Same image path other next) : Same image path reference next :=
  fun env agrees actor => (same env agrees actor).trans (more env agrees actor)

/-- A decision is compared on both of its arms. -/
theorem Same.of_arms (isDecision : ActorRef.nodeBase ≤ reference)
    (present : image.choices[reference - ActorRef.nodeBase]? = some choice)
    (onArms : ∀ arm, Same image (path.select ⟨choice.scope, arm⟩) (choice.child arm) other) :
    Same image path reference other := by
  intro env agrees actor
  rw [denotes_decision_iff isDecision present]
  exact onArms _ env (agrees.select rfl) actor

/-- A question is asked on both arms of a decision. -/
theorem certifies_arms {question : Arm → Run Bool} {holds : Arm → Prop}
    (certified : ∀ arm, Run.Certifies true (question arm) (holds arm)) :
    Run.Certifies true (Run.both (question .left) (question .right)) (∀ arm, holds arm) :=
  ((certified .left).both (certified .right)).mono fun onArms => Arm.rec onArms.1 onArms.2

/-- Where following a reference along a path ends. -/
structure Followed (image : ActorImage) (path : Context) (reference result : Nat) : Prop where
  bounded : Bounded image.choices result
  backward : result ≤ reference
  isOpen : ActorRef.nodeBase ≤ result → ∃ choice,
    image.choices[result - ActorRef.nodeBase]? = some choice ∧ path.get choice.scope = none

theorem selectedFuel_spec (valid : DecisionsValid root image.choices) (path : Context) (fuel : Nat)
    (bounded : Bounded image.choices reference) (enough : EnoughFuel fuel reference) :
    ∃ result, selectedFuel image path fuel reference = .ok result ∧
      Followed image path reference result ∧ Same image path reference result := by
  induction fuel generalizing reference with
  | zero => cases enough
  | succ fuel hyp =>
    unfold selectedFuel
    by_cases isActor : reference < ActorRef.nodeBase
    · rw [if_pos isActor]
      exact ⟨reference, rfl, ⟨bounded, le_rfl, fun isDecision => absurd isActor (by omega)⟩,
        .refl _ _ _⟩
    · obtain ⟨choice, present, shape⟩ := bounded.decision isActor
      rw [if_neg isActor, choiceAt_ok _ present, Run.bind_ok]
      cases decided : path.get choice.scope with
      | none =>
        exact ⟨reference, rfl, ⟨bounded, le_rfl, fun _ => ⟨choice, present, decided⟩⟩,
          .refl _ _ _⟩
      | some arm =>
        have backward := valid.backward _ choice present arm
        rw [shape] at enough
        obtain ⟨result, isResult, followed, same⟩ := hyp
          (Nat.lt_trans (shape ▸ backward) bounded) (enough.child backward)
        refine ⟨result, isResult, ⟨followed.bounded, by have := followed.backward; omega,
          followed.isOpen⟩, fun env agrees actor => ?_⟩
        rw [denotes_decision_iff (Nat.not_lt.mp isActor) present, agrees _ _ decided]
        exact same env agrees actor

/-- Following the decisions of a path returns and keeps what a reference denotes. -/
theorem selected_spec (valid : DecisionsValid root image.choices) (path : Context)
    (bounded : Bounded image.choices reference) :
    ∃ result, selected image reference path = .ok result ∧
      Followed image path reference result ∧ Same image path reference result :=
  selectedFuel_spec valid path _ bounded (enoughFuel_length bounded)

variable {left right : Nat}

theorem equivalentFuel_spec (valid : DecisionsValid root image.choices) (fuel : Nat)
    (path : Context) (leftBounded : Bounded image.choices left)
    (rightBounded : Bounded image.choices right) (enough : left + right < fuel) :
    Run.Certifies true (equivalentFuel image fuel left right path)
      (Same image path left right) := by
  induction fuel generalizing left right path with
  | zero => omega
  | succ fuel hyp =>
    obtain ⟨leftEnd, isLeft, leftFollowed, leftSame⟩ := selected_spec valid path leftBounded
    obtain ⟨rightEnd, isRight, rightFollowed, rightSame⟩ := selected_spec valid path rightBounded
    have leftBackward := leftFollowed.backward
    have rightBackward := rightFollowed.backward
    simp only [equivalentFuel, isLeft, isRight, Run.bind_ok]
    suffices ends : Run.Certifies true _ (Same image path leftEnd rightEnd) from
      ends.mono fun same => (leftSame.trans same).trans rightSame.symm
    split
    · rename_i same
      exact .of_ok (same ▸ .refl _ _ _)
    · split
      · rename_i isDecision
        obtain ⟨choice, present, _⟩ := leftFollowed.isOpen isDecision
        rw [choiceAt_ok _ present, Run.bind_ok]
        have step : ∀ arm, Run.Certifies true (equivalentFuel image fuel (choice.child arm) rightEnd
            (path.select ⟨choice.scope, arm⟩))
            (Same image (path.select ⟨choice.scope, arm⟩) (choice.child arm) rightEnd) := by
          intro arm
          have backward := valid.backward _ choice present arm
          exact hyp _ (Nat.lt_trans (by omega) leftFollowed.bounded)
            rightFollowed.bounded (by omega)
        exact (certifies_arms step).mono (.of_arms isDecision present)
      · split
        · rename_i isDecision
          obtain ⟨choice, present, _⟩ := rightFollowed.isOpen isDecision
          rw [choiceAt_ok _ present, Run.bind_ok]
          have step : ∀ arm, Run.Certifies true (equivalentFuel image fuel leftEnd
              (choice.child arm) (path.select ⟨choice.scope, arm⟩))
              (Same image (path.select ⟨choice.scope, arm⟩) leftEnd (choice.child arm)) := by
            intro arm
            have backward := valid.backward _ choice present arm
            exact hyp _ leftFollowed.bounded (Nat.lt_trans (by omega) rightFollowed.bounded)
              (by omega)
          exact (certifies_arms step).mono fun onArms =>
            (Same.of_arms isDecision present fun arm => (onArms arm).symm).symm
        · exact .of_ne Bool.false_ne_true

/-- Equivalence returns, and equivalent references denote one actor. -/
theorem equivalent_spec (valid : DecisionsValid root image.choices) (path : Context)
    (leftBounded : Bounded image.choices left) (rightBounded : Bounded image.choices right) :
    Run.Certifies true (equivalent image left right path) (Same image path left right) :=
  equivalentFuel_spec valid _ path leftBounded rightBounded (Nat.lt_succ_self _)

/-! ### Messages that are certain -/

/-- A present event of the subtree is a message of another actor's endpoint to the actor. -/
def Informs (image : ActorImage) (source : Source) (start : Nat) (assignment : Assignment)
    (actor : UInt8) (event : Nat) : Prop :=
  ∃ message pair, (event, message) ∈ source.presentEvents start assignment ∧
    message.fromKey ≠ message.toKey ∧ image.events[event]? = some pair ∧
    Denotes image.choices assignment pair.receiver actor

theorem Informs.bounds (informs : Informs image source start env actor event) :
    start ≤ event ∧ event < start + source.eventCount := by
  obtain ⟨message, pair, isPresent, _⟩ := informs
  exact Source.presentEvents_bounds isPresent

theorem Informs.mono (within : ∀ event ∈ part.presentEvents partStart env,
      event ∈ source.presentEvents start env)
    (informs : Informs image part partStart env actor event) :
    Informs image source start env actor event := by
  obtain ⟨message, pair, isPresent, rest⟩ := informs
  exact ⟨message, pair, within _ isPresent, rest⟩

/-- The references of an event of a compiled image: they name actors or decisions that are there,
and read only routes in front of the event that do not lie in an arm the event is not in. -/
structure PairReferenced (root : Source) (image : ActorImage) (event : Nat) (pair : ActorPair) :
    Prop where
  present : image.events[event]? = some pair
  sender : Bounded image.choices pair.sender
  receiver : Bounded image.choices pair.receiver
  reads : ∀ scope, Reads image.choices pair.sender scope ∨ Reads image.choices pair.receiver scope →
    scope ∈ root.routes 0 ∧ scope.stop ≤ event ∧
      ∀ route ∈ root.routes 0, route.start ≤ event → event < route.stop →
        ∀ other, other ≠ route.armAt event → ¬ route.Holds other scope.start scope.stop

/-- An image whose events all have such references. -/
structure Referenced (root : Source) (image : ActorImage) : Prop where
  valid : DecisionsValid root image.choices
  pair : ∀ event < root.eventCount, ∃ pair, PairReferenced root image event pair

theorem Referenced.of_events (referenced : Referenced root image) (inside : event < root.eventCount)
    (isPair : image.events[event]? = some pair) : PairReferenced root image event pair := by
  obtain ⟨found, paired⟩ := referenced.pair event inside
  cases isPair.symm.trans paired.present
  exact paired

theorem scopeAt_ok (small : root.eventCount ≤ 65535) {left right : Source}
    (inside : start + (left.eventCount + right.eventCount) ≤ root.eventCount) :
    scopeAt start left right = .ok (routeScope start left right) := by
  unfold scopeAt
  rw [if_neg]
  simp only [routeScope]
  omega

/-- An earlier present event of the subtree, in its order, is a message to the actor. -/
def InformedBefore (image : ActorImage) (source : Source) (start : Nat) (assignment : Assignment)
    (actor : UInt8) (event : Nat) : Prop :=
  ∃ earlier, Informs image source start assignment actor earlier ∧
    source.before (earlier - start) (event - start) = true

theorem InformedBefore.of_part (isPart : part.PartOf partStart source start env)
    (inside : event < partStart + part.eventCount)
    (informed : InformedBefore image part partStart env actor event) :
    InformedBefore image source start env actor event := by
  obtain ⟨earlier, informs, isBefore⟩ := informed
  exact ⟨earlier, informs.mono isPart.present,
    isPart.ordered earlier event informs.bounds.1 inside isBefore⟩

/-- Where the event is present, the actor of the reference is the controller, or knows the arm. -/
def InformedOn (image : ActorImage) (source : Source) (start event reference controller : Nat)
    (path : Context) : Prop :=
  ∀ env, path.Agrees env → event ∈ source.positions start env → ∀ actor,
    Denotes image.choices env reference actor → Denotes image.choices env controller actor ∨
      InformedBefore image source start env actor event

/-- The sender of every event of an arm is the controller, or knows the arm. -/
def ArmChecked (image : ActorImage) (body : Source) (start controller : Nat) (path : Context) :
    Prop :=
  ∀ event ∈ List.range' start body.eventCount, ∀ pair, image.events[event]? = some pair →
    InformedOn image body start event pair.sender controller path

section Order

variable (referenced : Referenced root image) (small : root.eventCount ≤ 65535)
include referenced small

theorem after_spec (source : Source) (path : Context)
    (inside : start + source.eventCount ≤ root.eventCount)
    (bounded : Bounded image.choices reference) :
    Run.Certifies true (after image source start reference path) (∀ env, path.Agrees env →
      ∀ actor, Denotes image.choices env reference actor →
        ∃ event, Informs image source start env actor event) := by
  induction source generalizing start path with
  | send message =>
    unfold after
    split
    · exact .of_ne Bool.false_ne_true
    · rename_i ne
      simp only [Source.eventCount] at inside
      obtain ⟨pair, paired⟩ := referenced.pair start (by omega)
      rw [pairAt_ok paired.present, Run.bind_ok]
      refine (equivalent_spec referenced.valid path paired.receiver bounded).mono ?_
      exact fun same env agrees actor denotes => ⟨start, message, pair, List.mem_singleton_self _,
        ne, paired.present, (same env agrees actor).mpr denotes⟩
  | seq left right hypLeft hypRight | par left right hypLeft hypRight =>
    simp only [Source.eventCount] at inside
    refine ((hypLeft path (by omega)).either (hypRight path (by omega))).mono
      fun certain env agrees actor denotes => ?_
    rcases certain with inLeft | inRight
    · exact (inLeft env agrees actor denotes).imp fun _ => .mono fun _ => List.mem_append_left _
    · exact (inRight env agrees actor denotes).imp fun _ => .mono fun _ => List.mem_append_right _
  | route left right resolver hypLeft hypRight =>
    simp only [Source.eventCount] at inside
    rw [after, scopeAt_ok small inside, Run.bind_ok]
    refine ((hypLeft _ (by omega)).both (hypRight _ (by simp only [routeScope]; omega))).mono
      fun certain env agrees actor denotes => ?_
    cases chosen : env (routeScope start left right) with
    | left =>
      exact (certain.1 env (agrees.select chosen) actor denotes).imp
        fun _ => .mono (Source.PartOf.route_left chosen).present
    | right =>
      exact (certain.2 env (agrees.select chosen) actor denotes).imp
        fun _ => .mono (Source.PartOf.route_right chosen).present
  | roll body hypBody => exact hypBody path inside

/-- The actor of a reference that `before` accepts is the controller, or knows the arm. -/
theorem before_spec (source : Source) (path : Context)
    (inside : start + source.eventCount ≤ root.eventCount)
    (bounded : Bounded image.choices reference)
    (controllerBounded : Bounded image.choices controller) :
    Run.Certifies true (before image source start event reference controller path)
      (InformedOn image source start event reference controller path) := by
  -- the controller knows the arm, whatever the subtree is
  have controlled : ∀ {source start path} {inner : Run Bool},
      Run.Certifies true inner (InformedOn image source start event reference controller path) →
      Run.Certifies true (Run.either (equivalent image reference controller path) inner)
        (InformedOn image source start event reference controller path) := by
    intro source start path inner certified
    refine ((equivalent_spec referenced.valid path bounded controllerBounded).either certified).mono
      fun certain => certain.elim (fun same env agrees _ actor denotes => ?_) id
    exact .inl ((same env agrees actor).mp denotes)
  induction source generalizing start path with
  | send message => exact controlled (.of_ne Bool.false_ne_true)
  | seq left right hypLeft hypRight =>
    simp only [Source.eventCount] at inside
    refine controlled ?_
    dsimp only
    split
    · rename_i inLeft
      exact (hypLeft path (by omega)).mono fun knows env agrees isPresent actor denotes =>
        (knows env agrees (Source.mem_positions_seq_left isPresent inLeft) actor denotes).imp_right
          (·.of_part .seq_left inLeft)
    · rename_i inRight
      refine ((after_spec referenced small left path (by omega) bounded).either
        (hypRight path (by omega))).mono fun certain env agrees isPresent actor denotes => ?_
      have present := Source.mem_positions_seq_right isPresent (Nat.not_lt.mp inRight)
      rcases certain with isAfter | knows
      · obtain ⟨earlier, informs⟩ := isAfter env agrees actor denotes
        have earlierBounds := informs.bounds
        refine .inr ⟨earlier, informs.mono (fun _ => List.mem_append_left _), ?_⟩
        exact Source.before_seq_across (by omega) (by omega)
      · exact (knows env agrees present actor denotes).imp_right
          (·.of_part .seq_right (Source.positions_bounds present).2)
  | par left right hypLeft hypRight =>
    simp only [Source.eventCount] at inside
    refine controlled ?_
    dsimp only
    split
    · rename_i inLeft
      exact (hypLeft path (by omega)).mono fun knows env agrees isPresent actor denotes =>
        (knows env agrees (Source.mem_positions_seq_left isPresent inLeft) actor denotes).imp_right
          (·.of_part .par_left inLeft)
    · rename_i inRight
      refine (hypRight path (by omega)).mono fun knows env agrees isPresent actor denotes => ?_
      have present := Source.mem_positions_seq_right isPresent (Nat.not_lt.mp inRight)
      exact (knows env agrees present actor denotes).imp_right
        (·.of_part .par_right (Source.positions_bounds present).2)
  | route left right resolver hypLeft hypRight =>
    simp only [Source.eventCount] at inside
    refine controlled ?_
    rw [scopeAt_ok small inside, Run.bind_ok]
    split
    · rename_i inLeft
      refine (hypLeft _ (by omega)).mono fun knows env agrees isPresent actor denotes => ?_
      obtain ⟨chosen, present⟩ := Source.mem_positions_route_left isPresent inLeft
      exact (knows env (agrees.select chosen) present actor denotes).imp_right
        (·.of_part (.route_left chosen) inLeft)
    · rename_i inRight
      refine (hypRight _ (by simp only [routeScope]; omega)).mono
        fun knows env agrees isPresent actor denotes => ?_
      obtain ⟨chosen, present⟩ :=
        Source.mem_positions_route_right isPresent (Nat.not_lt.mp inRight)
      exact (knows env (agrees.select chosen) present actor denotes).imp_right
        (·.of_part (.route_right chosen) (Source.positions_bounds present).2)
  | roll body hypBody =>
    refine controlled ((hypBody path inside).mono
      fun knows env agrees isPresent actor denotes => ?_)
    exact (knows env agrees isPresent actor denotes).imp_right
      (·.of_part .roll_body (Source.positions_bounds isPresent).2)

theorem armConflict_spec (body : Source) (path : Context)
    (inside : start + body.eventCount ≤ root.eventCount)
    (bounded : Bounded image.choices controller) :
    Run.Certifies none (armConflict image scope controller body start path)
      (ArmChecked image body start controller path) := by
  have step : ∀ event ∈ List.range' start body.eventCount, Run.Certifies true
      (informed image body start event controller path) (∀ pair, image.events[event]? = some pair →
        InformedOn image body start event pair.sender controller path) := by
    intro event mem
    have bounds := List.mem_range'_1.mp mem
    obtain ⟨pair, paired⟩ := referenced.pair event (by omega)
    rw [informed, pairAt_ok paired.present, Run.bind_ok]
    refine (before_spec referenced small body path inside paired.sender bounded).mono ?_
    intro knows found isFound
    cases paired.present.symm.trans isFound
    exact knows
  obtain ⟨accepted, isAccepted, accepts⟩ := Run.Certifies.allM step
  rw [armConflict, arm, isAccepted, Run.bind_ok]
  cases accepted with
  | true => exact .of_ok (accepts rfl)
  | false =>
    refine Run.Certifies.findSomeM fun event mem => ?_
    have bounds := List.mem_range'_1.mp mem
    obtain ⟨known, isKnown, knows⟩ := step event mem
    rw [isKnown, Run.bind_ok]
    cases known with
    | true => exact .of_ok (knows rfl)
    | false =>
      obtain ⟨pair, paired⟩ := referenced.pair event (by omega)
      obtain ⟨actor, isActor, _⟩ := selected_spec referenced.valid path paired.sender
      rw [pairAt_ok paired.present, Run.bind_ok, isActor, Run.bind_ok]
      exact .of_ne (Option.some_ne_none _)

end Order

end Checker

end Hibana
