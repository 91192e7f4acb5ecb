/-
This file proves knowledge of choice for the sources that the check accepts.

On every complete path, whoever sends in an arm of a route controls the route or
has received an earlier message of the arm, and an actor that is not the
controller takes part in one arm exactly when it takes part in the other. For
the second part two assignments are joined into one that follows the first in
one arm and the second everywhere else; no reference of the other arm can tell
the difference.
-/

import HibanaChoreography.Ownership.KnowledgeReturns

namespace Hibana

open Outcome List

/-! ### References of a compiled image -/

variable {source : Source} {image : ActorImage} {choices : List ActorChoice} {reference : Nat}

theorem Reads.mem_routes {scope : Scope} (valid : DecisionsValid source choices)
    (reads : Reads choices reference scope) : scope ∈ source.routes 0 := by
  induction reads with
  | here present => exact valid.scopes _ _ present
  | child _ _ _ hyp => exact hyp

variable {root : Source} {message : Message} {event : Nat} {route : Scope}

/-- The path of an event has decided every route around the event by the arm that the event is
in. -/
theorem Located.get_of_send {path : Context} (located : Located root path (.send message) event)
    (mem : route ∈ root.routes 0) (low : route.start ≤ event) (high : event < route.stop) :
    path.get route = some (route.armAt event) := by
  rcases located.outer route mem with ⟨⟨⟩⟩ | before | behind | decided
  · omega
  · simp only [Source.eventCount] at behind
    omega
  · obtain ⟨arm, isArm⟩ := Option.ne_none_iff_exists'.mp decided
    obtain ⟨_, holds⟩ := located.decided route arm isArm
    rw [isArm]
    cases arm with
    | left => rw [Scope.armAt_left _ (Nat.lt_of_succ_le holds.2)]
    | right => rw [Scope.armAt_right _ holds.1]

theorem ReferenceLowered.reads_spec {initial : Holders} {path : Context} {key : EndpointKey}
    (valid : DecisionsValid root choices) (located : Located root path (.send message) event)
    (lowered : ReferenceLowered root initial choices path ⟨key, event⟩ reference) {scope : Scope}
    (reads : Reads choices reference scope) :
    scope ∈ root.routes 0 ∧ scope.stop ≤ event ∧
      ∀ route ∈ root.routes 0, route.start ≤ event → event < route.stop →
        ∀ other, other ≠ route.armAt event → ¬ route.Holds other scope.start scope.stop := by
  obtain ⟨ended, reaches⟩ := lowered.reads scope reads
  exact ⟨reads.mem_routes valid, ended, fun route mem low high other ne =>
    reaches route mem _ (located.get_of_send mem low high) other ne⟩

variable {scratch : Scratch}

theorem Compiled.referenced (compiled : Compiled source scratch image) :
    Checker.Referenced source image where
  valid := compiled.valid
  pair := by
    intro event inside
    obtain ⟨initial, isModel, _⟩ :=
      (Scratch.rooted_iff_existsUnique compiled.accepted.valid).mp compiled.accepted.rooted
    obtain ⟨path, message, pair, lowered, _⟩ := compiled.lowered initial
      ((compiled.accepted.models initial).mp isModel) event (Nat.zero_le _) (by omega)
    refine ⟨pair, lowered.present, lowered.sender.bounded, lowered.receiver.bounded, ?_⟩
    rintro scope (ofSender | ofReceiver)
    · exact lowered.sender.reads_spec compiled.valid lowered.located ofSender
    · exact lowered.receiver.reads_spec compiled.valid lowered.located ofReceiver

variable {first second : Assignment}

namespace Checker

variable {image : ActorImage} {env : Assignment}

/-! ### The sender of an event knows the arm -/

/-- An earlier present event of the same arm is a message to the actor. -/
def InformedIn (image : ActorImage) (source : Source) (start : Nat) (assignment : Assignment)
    (scope : Scope) (actor : UInt8) (event : Nat) : Prop :=
  ∃ earlier, Informs image source start assignment actor earlier ∧
    scope.start ≤ earlier ∧ earlier < scope.stop ∧ scope.armAt earlier = scope.armAt event ∧
    source.before (earlier - start) (event - start) = true

variable {start event : Nat} {scope : Scope} {actor : UInt8} {path : Context} {partStart : Nat}

theorem InformedIn.of_part {part source : Source} (isPart : part.PartOf partStart source start env)
    (inside : event < partStart + part.eventCount)
    (informed : InformedIn image part partStart env scope actor event) :
    InformedIn image source start env scope actor event := by
  obtain ⟨earlier, informs, low, high, sameArm, isBefore⟩ := informed
  exact ⟨earlier, informs.mono isPart.present, low, high, sameArm,
    isPart.ordered earlier event informs.bounds.1 inside isBefore⟩

/-- The actor controls the route, or knows the arm of the event. -/
def Knows (image : ActorImage) (source : Source) (start : Nat) (assignment : Assignment)
    (scope : Scope) (actor : UInt8) (event : Nat) : Prop :=
  (∃ first, image.events[scope.start]? = some first ∧
    Denotes image.choices assignment first.sender actor) ∨
  InformedIn image source start assignment scope actor event

variable {pair : ActorPair}

/-- What the checker has verified for an arm, read for its own route. -/
theorem knows_of_arm {left right : Source} {controller : Nat} {body : Source} {begin : Nat}
    (arm : Arm) (first : ∃ pair, image.events[start]? = some pair ∧ pair.sender = controller)
    (holds : (routeScope start left right).Holds arm begin (begin + body.eventCount))
    (agrees : path.Agrees env) (checked : ArmChecked image body begin controller path)
    (isPresent : event ∈ body.positions begin env) (isPair : image.events[event]? = some pair)
    (denotes : Denotes image.choices env pair.sender actor) :
    Knows image body begin env (routeScope start left right) actor event := by
  have bounds := Source.positions_bounds isPresent
  refine (checked event (mem_range'_1.mpr bounds) pair isPair env agrees isPresent actor
    denotes).imp (fun isController => ?_) ?_
  · obtain ⟨found, isFound, rfl⟩ := first
    exact ⟨found, isFound, isController⟩
  · rintro ⟨earlier, informs, isBefore⟩
    have earlierBounds := informs.bounds
    refine ⟨earlier, informs, ?_, ?_, ?_, isBefore⟩
    · cases arm <;> simp only [Scope.Holds, routeScope] at holds ⊢ <;> omega
    · cases arm <;> simp only [Scope.Holds, routeScope] at holds ⊢ <;> omega
    · cases arm with
      | left =>
        rw [Scope.armAt_left _ (Nat.lt_of_lt_of_le earlierBounds.2 holds.2),
          Scope.armAt_left _ (Nat.lt_of_lt_of_le bounds.2 holds.2)]
      | right =>
        rw [Scope.armAt_right _ (holds.1.trans earlierBounds.1),
          Scope.armAt_right _ (holds.1.trans bounds.1)]

/-- In a subtree without conflicts, the sender of a present event knows every route of the subtree
around the event. -/
theorem knows_of_none (source : Source) (agrees : path.Agrees env)
    (checked : Checked image source start path) (mem : scope ∈ source.routes start)
    (isPresent : event ∈ source.positions start env) (low : scope.start ≤ event)
    (high : event < scope.stop) (isPair : image.events[event]? = some pair)
    (denotes : Denotes image.choices env pair.sender actor) :
    Knows image source start env scope actor event := by
  induction source generalizing start path with
  | send message => cases mem
  | seq left right hypLeft hypRight =>
    obtain ⟨onLeft, onRight⟩ := checked
    rcases mem_append.mp mem with inLeft | inRight
    · have bounds := Source.routes_bounds inLeft
      have present := Source.mem_positions_seq_left isPresent (by omega)
      exact (hypLeft agrees onLeft inLeft present).imp_right (·.of_part .seq_left (by omega))
    · have bounds := Source.routes_bounds inRight
      have present := Source.mem_positions_seq_right isPresent (by omega)
      exact (hypRight agrees onRight inRight present).imp_right (·.of_part .seq_right (by omega))
  | par left right hypLeft hypRight =>
    obtain ⟨onLeft, onRight⟩ := checked
    rcases mem_append.mp mem with inLeft | inRight
    · have bounds := Source.routes_bounds inLeft
      have present := Source.mem_positions_seq_left isPresent (by omega)
      exact (hypLeft agrees onLeft inLeft present).imp_right (·.of_part .par_left (by omega))
    · have bounds := Source.routes_bounds inRight
      have present := Source.mem_positions_seq_right isPresent (by omega)
      exact (hypRight agrees onRight inRight present).imp_right (·.of_part .par_right (by omega))
  | route left right resolver hypLeft hypRight =>
    obtain ⟨⟨controller, routeChecked⟩, innerLeft, innerRight⟩ := checked
    rcases mem_cons.mp mem with rfl | inArms
    · by_cases inLeft : event < start + left.eventCount
      · obtain ⟨chosen, present⟩ := Source.mem_positions_route_left isPresent inLeft
        exact (knows_of_arm .left routeChecked.first ⟨le_rfl, le_rfl⟩
          (agrees.select chosen) routeChecked.onLeft present isPair denotes).imp_right
            (·.of_part (.route_left chosen) inLeft)
      · obtain ⟨chosen, present⟩ :=
          Source.mem_positions_route_right isPresent (Nat.not_lt.mp inLeft)
        exact (knows_of_arm .right routeChecked.first ⟨le_rfl, le_rfl⟩
          (agrees.select chosen) routeChecked.onRight present isPair denotes).imp_right
            (·.of_part (.route_right chosen) high)
    · rcases mem_append.mp inArms with inLeft | inRight
      · have bounds := Source.routes_bounds inLeft
        obtain ⟨chosen, present⟩ := Source.mem_positions_route_left isPresent (by omega)
        exact (hypLeft (agrees.select chosen) innerLeft inLeft present).imp_right
          (·.of_part (.route_left chosen) (by omega))
      · have bounds := Source.routes_bounds inRight
        obtain ⟨chosen, present⟩ := Source.mem_positions_route_right isPresent (by omega)
        exact (hypRight (agrees.select chosen) innerRight inRight present).imp_right
          (·.of_part (.route_right chosen) (by omega))
  | roll body hypBody =>
    exact (hypBody agrees checked mem isPresent).imp_right
      (·.of_part .roll_body (Source.positions_bounds isPresent).2)

/-! ### Joining two assignments -/

/-- The assignments agree on every route of the root outside this one. -/
def AgreeOutside (root : Source) (scope : Scope) (first second : Assignment) : Prop :=
  ∀ route ∈ root.routes 0, ¬ (scope.start ≤ route.start ∧ route.stop ≤ scope.stop) →
    first route = second route

/-- Follow the first assignment in one arm of the route, and the second elsewhere. -/
def joined (scope : Scope) (arm : Arm) (first second : Assignment) : Assignment :=
  fun route => if scope.Holds arm route.start route.stop then first route else second route

theorem joined_of_eq {arm : Arm} (same : first route = second route) :
    joined scope arm first second route = first route := by
  unfold joined
  split
  · rfl
  · exact same.symm

section Join

variable {root left right : Source} {resolver : Option UInt16} {start : Nat} {path : Context}
  {first second : Assignment}

/-- A route inside another one lies in one of its arms. -/
theorem holds_of_inside (located : Located root path (.route left right resolver) start)
    (mem : route ∈ root.routes 0) (low : start ≤ route.start)
    (high : route.stop ≤ start + left.eventCount + right.eventCount) :
    route = routeScope start left right ∨
      ∃ arm, (routeScope start left right).Holds arm route.start route.stop := by
  have own := Source.routes_bounds mem
  rcases located.outer route mem with inside | before | behind | decided
  · rcases mem_cons.mp inside with same | inArms
    · exact .inl same
    · rcases mem_append.mp inArms with inLeft | inRight
      · have bounds := Source.routes_bounds inLeft
        exact .inr ⟨.left, low, bounds.2.2.2⟩
      · have bounds := Source.routes_bounds inRight
        exact .inr ⟨.right, bounds.1, high⟩
  · omega
  · simp only [Source.eventCount] at behind
    omega
  · obtain ⟨arm, isArm⟩ := Option.ne_none_iff_exists'.mp decided
    obtain ⟨_, holds⟩ := located.decided route arm isArm
    cases arm <;> simp only [Scope.Holds, Source.eventCount] at holds <;> omega

variable {arm : Arm} {event : Nat} {role : UInt8}

section

variable (located : Located root path (.route left right resolver) start)
  (agree : AgreeOutside root (routeScope start left right) first second)

include located agree

/-- The path of a route has decided only routes outside it. -/
theorem outside_of_decided (isArm : path.get route = some arm) : first route = second route := by
  obtain ⟨mem, holds⟩ := located.decided route arm isArm
  have own := Source.routes_bounds mem
  refine agree route mem ?_
  simp only [routeScope]
  cases arm <;> simp only [Scope.Holds, Source.eventCount] at holds <;> omega

theorem agrees_joined (agrees : path.Agrees first) (arm : Arm) :
    path.Agrees (joined (routeScope start left right) arm first second) := by
  intro route taken isTaken
  rw [joined_of_eq (outside_of_decided located agree isTaken)]
  exact agrees route taken isTaken

theorem agrees_second (agrees : path.Agrees first) : path.Agrees second := by
  intro route taken isTaken
  rw [← outside_of_decided located agree isTaken]
  exact agrees route taken isTaken

end

theorem Names.congr (paired : PairReferenced root image event pair)
    (named : Names image first role event)
    (same : ∀ scope, Reads image.choices pair.sender scope ∨
      Reads image.choices pair.receiver scope → first scope = second scope) :
    Names image second role event := by
  obtain ⟨found, isFound, names⟩ := named
  rw [paired.present] at isFound
  cases isFound
  exact ⟨pair, paired.present, names.imp
    (fun denotes => denotes.congr fun scope reads => same scope (.inl reads))
    fun denotes => denotes.congr fun scope reads => same scope (.inr reads)⟩

/-- An event of the arm cannot tell the joined assignment from the first. -/
theorem names_joined (referenced : Referenced root image)
    (located : Located root path (.route left right resolver) start)
    (inside : start + left.eventCount + right.eventCount ≤ root.eventCount)
    (agree : AgreeOutside root (routeScope start left right) first second) (low : start ≤ event)
    (high : event < start + left.eventCount + right.eventCount)
    (named : Names image first role event) :
    Names image (joined (routeScope start left right)
      ((routeScope start left right).armAt event) first second) role event := by
  obtain ⟨pair, paired⟩ := referenced.pair event (by omega)
  refine named.congr paired fun scope reads => ?_
  obtain ⟨mem, ended, apart⟩ := paired.reads scope reads
  have notOther := apart _ (located.inner _ mem_cons_self) low high
  unfold joined
  split
  · rfl
  · rename_i notOwn
    refine agree scope mem fun isInside => ?_
    rcases holds_of_inside located mem isInside.1 isInside.2 with rfl | ⟨arm, holds⟩
    · simp only [routeScope] at ended
      omega
    · by_cases own : arm = (routeScope start left right).armAt event
      · exact notOwn (own ▸ holds)
      · exact notOther arm own holds

/-- An event of the other arm cannot tell it from the second. -/
theorem names_second (referenced : Referenced root image)
    (located : Located root path (.route left right resolver) start)
    (inside : start + left.eventCount + right.eventCount ≤ root.eventCount) (low : start ≤ event)
    (high : event < start + left.eventCount + right.eventCount)
    (other : arm ≠ (routeScope start left right).armAt event)
    (named : Names image (joined (routeScope start left right) arm first second) role event) :
    Names image second role event := by
  obtain ⟨pair, paired⟩ := referenced.pair event (by omega)
  refine named.congr paired fun scope reads => ?_
  obtain ⟨_, _, apart⟩ := paired.reads scope reads
  exact if_neg (apart _ (located.inner _ mem_cons_self) low high arm other)

/-- Nor can the reference of the controller. -/
theorem controller_joined (referenced : Referenced root image)
    (inside : start + left.eventCount + right.eventCount ≤ root.eventCount)
    (agree : AgreeOutside root (routeScope start left right) first second)
    (isPair : image.events[start]? = some pair)
    (denotes : Denotes image.choices (joined (routeScope start left right) arm first second)
      pair.sender role) : Denotes image.choices first pair.sender role := by
  have leftPos := left.eventCount_pos
  have paired := referenced.of_events (by omega) isPair
  refine denotes.congr fun scope reads => ?_
  obtain ⟨mem, ended, _⟩ := paired.reads scope (.inl reads)
  have own := Source.routes_bounds mem
  refine joined_of_eq (agree scope mem ?_)
  simp only [routeScope]
  omega

/-- A role that acts in the arm of a route that one assignment takes, and is not its controller,
acts in the arm that the other takes. -/
theorem acts_of_route (referenced : Referenced root image)
    (located : Located root path (.route left right resolver) start)
    (inside : start + left.eventCount + right.eventCount ≤ root.eventCount)
    (checked : Checked image (.route left right resolver) start path) (agrees : path.Agrees first)
    (agree : AgreeOutside root (routeScope start left right) first second)
    (differ : first (routeScope start left right) ≠ second (routeScope start left right))
    (isPresent : event ∈ (Source.route left right resolver).positions start first)
    (named : Names image first role event)
    (notController : ∀ pair, image.events[start]? = some pair →
      ¬ Denotes image.choices first pair.sender role) :
    Acts image (.route left right resolver) start second role := by
  obtain ⟨⟨controller, routeChecked⟩, innerLeft, innerRight⟩ := checked
  have bounds := Source.positions_bounds isPresent
  simp only [Source.eventCount] at bounds
  have onJoined := names_joined referenced located inside agree bounds.1 (by omega) named
  have onSecond := agrees_second located agree agrees
  have balanced := (routeChecked.roles role _
    (agrees_joined located agree agrees ((routeScope start left right).armAt event))).resolve_left
    fun isController => by
      obtain ⟨pair, isPair, rfl⟩ := routeChecked.first
      exact notController pair isPair
        (controller_joined referenced inside agree isPair isController)
  simp only [routeScope] at balanced
  by_cases inLeft : event < start + left.eventCount
  · obtain ⟨chosen, _⟩ := Source.mem_positions_route_left isPresent inLeft
    have isRight : second (routeScope start left right) = .right := by
      cases taken : second (routeScope start left right) with
      | left => exact absurd (chosen.trans taken.symm) differ
      | right => rfl
    obtain ⟨other, low, high, otherNamed⟩ := balanced.mp ⟨event, bounds.1, inLeft, onJoined⟩
    have apart : (routeScope start left right).armAt event ≠
        (routeScope start left right).armAt other := by
      rw [Scope.armAt_left _ inLeft, Scope.armAt_right _ low]
      exact Arm.noConfusion
    have named := names_second referenced located inside (by omega) high apart otherNamed
    exact (acts_of_namedIn referenced right inside (onSecond.select isRight) innerRight
      ⟨other, low, high, named⟩).mono (Source.PartOf.route_right isRight).present
  · have inRight := Nat.not_lt.mp inLeft
    obtain ⟨chosen, _⟩ := Source.mem_positions_route_right isPresent inRight
    have isLeft : second (routeScope start left right) = .left := by
      cases taken : second (routeScope start left right) with
      | left => rfl
      | right => exact absurd (chosen.trans taken.symm) differ
    obtain ⟨other, low, high, otherNamed⟩ := balanced.mpr ⟨event, inRight, by omega, onJoined⟩
    have apart : (routeScope start left right).armAt event ≠
        (routeScope start left right).armAt other := by
      rw [Scope.armAt_right _ inRight, Scope.armAt_left _ high]
      exact Arm.noConfusion
    have named := names_second referenced located inside low (by omega) apart otherNamed
    exact (acts_of_namedIn referenced left (by omega) (onSecond.select isLeft) innerLeft
      ⟨other, low, high, named⟩).mono (Source.PartOf.route_left isLeft).present

end Join

/-- The role acts in the route: it sends or receives a present event there. -/
def ActsIn (image : ActorImage) (source : Source) (start : Nat) (assignment : Assignment)
    (scope : Scope) (role : UInt8) : Prop :=
  ∃ event ∈ source.positions start assignment, scope.start ≤ event ∧ event < scope.stop ∧
    Names image assignment role event

theorem ActsIn.mono {part source : Source} {role : UInt8}
    (within : ∀ event ∈ part.presentEvents partStart env, event ∈ source.presentEvents start env)
    (acts : ActsIn image part partStart env scope role) :
    ActsIn image source start env scope role := by
  obtain ⟨_, mem, rest⟩ := acts
  obtain ⟨event, isEvent, rfl⟩ := mem_map.mp mem
  exact ⟨_, mem_map_of_mem (within event isEvent), rest⟩

/-- In a subtree without conflicts, a role that acts in a route on one assignment, and is not its
controller, acts there on every assignment that takes the other arm and agrees outside. -/
theorem actsIn_of_none (referenced : Referenced root image) (source : Source)
    (located : Located root path source start)
    (inside : start + source.eventCount ≤ root.eventCount) (agrees : path.Agrees first)
    (checked : Checked image source start path) (mem : scope ∈ source.routes start)
    (agree : AgreeOutside root scope first second) (differ : first scope ≠ second scope)
    {role : UInt8}
    (acts : ActsIn image source start first scope role)
    (notController : ∀ pair, image.events[scope.start]? = some pair →
      ¬ Denotes image.choices first pair.sender role) :
    ActsIn image source start second scope role := by
  obtain ⟨event, isPresent, low, high, named⟩ := acts
  induction source generalizing start path with
  | send message => cases mem
  | seq left right hypLeft hypRight =>
    simp only [Source.eventCount] at inside
    obtain ⟨onLeft, onRight⟩ := checked
    rcases mem_append.mp mem with inLeft | inRight
    · have bounds := Source.routes_bounds inLeft
      exact (hypLeft located.seq_left (by omega) agrees onLeft inLeft
        (Source.mem_positions_seq_left isPresent (by omega))).mono fun _ => mem_append_left _
    · have bounds := Source.routes_bounds inRight
      exact (hypRight located.seq_right (by omega) agrees onRight inRight
        (Source.mem_positions_seq_right isPresent (by omega))).mono fun _ => mem_append_right _
  | par left right hypLeft hypRight =>
    simp only [Source.eventCount] at inside
    obtain ⟨onLeft, onRight⟩ := checked
    rcases mem_append.mp mem with inLeft | inRight
    · have bounds := Source.routes_bounds inLeft
      exact (hypLeft located.par_left (by omega) agrees onLeft inLeft
        (Source.mem_positions_seq_left isPresent (by omega))).mono fun _ => mem_append_left _
    · have bounds := Source.routes_bounds inRight
      exact (hypRight located.par_right (by omega) agrees onRight inRight
        (Source.mem_positions_seq_right isPresent (by omega))).mono fun _ => mem_append_right _
  | route left right resolver hypLeft hypRight =>
    simp only [Source.eventCount] at inside
    rcases mem_cons.mp mem with rfl | inArms
    · obtain ⟨other, isOther, otherNamed⟩ :=
        acts_of_route referenced located (by omega) checked agrees
        agree differ isPresent named notController
      have bounds := Source.positions_bounds isOther
      simp only [Source.eventCount] at bounds
      exact ⟨other, isOther, bounds.1, by simp only [routeScope]; omega, otherNamed⟩
    · obtain ⟨_, innerLeft, innerRight⟩ := checked
      have leftPos := left.eventCount_pos
      have rightPos := right.eventCount_pos
      rcases mem_append.mp inArms with inLeft | inRight
      · have bounds := Source.routes_bounds inLeft
        obtain ⟨chosen, present⟩ := Source.mem_positions_route_left isPresent (by omega)
        have same := agree _ (located.inner _ mem_cons_self)
          (by simp only [routeScope]; omega)
        exact (hypLeft located.route_left (by omega) (agrees.select chosen) innerLeft
          inLeft present).mono (Source.PartOf.route_left (same.symm.trans chosen)).present
      · have bounds := Source.routes_bounds inRight
        obtain ⟨chosen, present⟩ := Source.mem_positions_route_right isPresent (by omega)
        have same := agree _ (located.inner _ mem_cons_self)
          (by simp only [routeScope]; omega)
        exact (hypRight located.route_right (by omega) (agrees.select chosen)
          innerRight inRight present).mono
            (Source.PartOf.route_right (same.symm.trans chosen)).present
  | roll body hypBody =>
    exact hypBody located.roll_body inside agrees checked mem isPresent

end Checker

/-! ### Knowledge of choice -/

namespace ActorImage

/-- On this path the actor sends the event. -/
def Sends (image : ActorImage) (selections : List Selection) (event : Nat) (actor : UInt8) : Prop :=
  ∃ receiver, image.actorsAt event selections = .ok (some (actor, receiver))

/-- On this path the actor receives the event. -/
def Receives (image : ActorImage) (selections : List Selection) (event : Nat) (actor : UInt8) :
    Prop :=
  ∃ sender, image.actorsAt event selections = .ok (some (sender, actor))

end ActorImage

section Actors

variable {source : Source} {image : ActorImage} {env : Assignment}
  {selections : List Selection} {event : Nat} {pair : ActorPair}

section

variable (referenced : Checker.Referenced source image)
  (published : image.eventLen = source.eventCount)
  (complete : source.Complete selections env) (inside : event < source.eventCount)

include referenced published complete inside

/-- The actors of an event on a complete path are what its references denote. -/
theorem actorsAt_iff (isPair : image.events[event]? = some pair) (sender receiver : UInt8) :
    image.actorsAt event selections = .ok (some (sender, receiver)) ↔
      Denotes image.choices env pair.sender sender ∧
        Denotes image.choices env pair.receiver receiver := by
  have paired := referenced.of_events inside isPair
  obtain ⟨sending, isSending⟩ := paired.sender.exists_denotes referenced.valid env
  obtain ⟨receiving, isReceiving⟩ := paired.receiver.exists_denotes referenced.valid env
  rw [actorsAt_of_denotes referenced.valid complete (by omega) isPair paired.sender paired.receiver
    isSending isReceiving]
  constructor
  · intro equal
    cases Except.ok.inj equal
    exact ⟨isSending, isReceiving⟩
  · rintro ⟨isSender, isReceiver⟩
    rw [isSending.unique isSender, isReceiving.unique isReceiver]

theorem sends_iff (isPair : image.events[event]? = some pair) (actor : UInt8) :
    image.Sends selections event actor ↔ Denotes image.choices env pair.sender actor := by
  have paired := referenced.of_events inside isPair
  obtain ⟨receiving, isReceiving⟩ := paired.receiver.exists_denotes referenced.valid env
  simp only [ActorImage.Sends, actorsAt_iff referenced published complete inside isPair]
  exact ⟨fun ⟨_, isSender, _⟩ => isSender, fun isSender => ⟨receiving, isSender, isReceiving⟩⟩

theorem receives_iff (isPair : image.events[event]? = some pair) (actor : UInt8) :
    image.Receives selections event actor ↔ Denotes image.choices env pair.receiver actor := by
  have paired := referenced.of_events inside isPair
  obtain ⟨sending, isSending⟩ := paired.sender.exists_denotes referenced.valid env
  simp only [ActorImage.Receives, actorsAt_iff referenced published complete inside isPair]
  exact ⟨fun ⟨_, _, isReceiver⟩ => isReceiver, fun isReceiver => ⟨sending, isSending, isReceiver⟩⟩

/-- The event names the role exactly when the role sends or receives it. -/
theorem names_iff_acts (role : UInt8) :
    Checker.Names image env role event ↔
      image.Sends selections event role ∨ image.Receives selections event role := by
  obtain ⟨pair, paired⟩ := referenced.pair event inside
  rw [sends_iff referenced published complete inside paired.present,
    receives_iff referenced published complete inside paired.present]
  exact Checker.names_iff paired.present

end

end Actors

/-- A compiled source fits the `u16` event domain. -/
theorem eventCount_le_of_compiled {symbolCapacity eventCapacity decisionCapacity : Nat}
    (isOk : compileActorImageInto symbolCapacity eventCapacity decisionCapacity source =
      .ok (scratch, image)) : source.eventCount ≤ 65535 := by
  obtain ⟨validated, isValidated, _⟩ := Run.of_bind isOk
  have fits := fits_of_validate isValidated
  exact fits.events.trans fits.eventsSmall

section Accepted

variable {source : Source} {image : ActorImage} (referenced : Checker.Referenced source image)
  (published : image.eventLen = source.eventCount)
  (checked : Checker.Checked image source 0 (Context.new [])) {scope : Scope}
  (mem : scope ∈ source.routes 0)
include referenced published checked mem

/-- The sender of a present event controls the routes around it, or knows the arm. -/
theorem sender_knows {env : Assignment} {selections : List Selection}
    (complete : source.Complete selections env) (isPresent : source.Present env event)
    (low : scope.start ≤ event) (high : event < scope.stop) :
    ∃ controller sender, image.Sends selections scope.start controller ∧
      image.Sends selections event sender ∧
      (sender = controller ∨ ∃ earlier message, (earlier, message) ∈ source.presentEvents 0 env ∧
        scope.start ≤ earlier ∧ earlier < scope.stop ∧
        scope.armAt earlier = scope.armAt event ∧ message.fromKey ≠ message.toKey ∧
        image.Receives selections earlier sender ∧ source.before earlier event = true) := by
  have bounds := Source.routes_bounds mem
  obtain ⟨pair, paired⟩ := referenced.pair event (by omega)
  obtain ⟨first, firstPaired⟩ := referenced.pair scope.start (by omega)
  obtain ⟨sender, isSender⟩ := paired.sender.exists_denotes referenced.valid env
  obtain ⟨controller, isController⟩ := firstPaired.sender.exists_denotes referenced.valid env
  refine ⟨controller, sender,
    (sends_iff referenced published complete (by omega) firstPaired.present _).mpr isController,
    (sends_iff referenced published complete (by omega) paired.present _).mpr isSender, ?_⟩
  refine (Checker.knows_of_none source (by rintro _ _ ⟨⟩) checked mem
    isPresent low high paired.present isSender).imp ?_ ?_
  · rintro ⟨found, isFound, denotes⟩
    rw [firstPaired.present] at isFound
    cases isFound
    exact denotes.unique isController
  · rintro ⟨earlier, ⟨message, received, earlierPresent, ne, isReceived, denotes⟩,
      earlierLow, earlierHigh, sameArm, isBefore⟩
    exact ⟨earlier, message, earlierPresent, earlierLow, earlierHigh, sameArm, ne,
      (receives_iff referenced published complete (by omega) isReceived _).mpr denotes, isBefore⟩

/-- An actor of one arm that is not the controller acts in the other arm. -/
theorem acts_in_other {firstPath secondPath : List Selection}
    (firstComplete : source.Complete firstPath first)
    (secondComplete : source.Complete secondPath second)
    (agree : Checker.AgreeOutside source scope first second) (differ : first scope ≠ second scope)
    {actor controller : UInt8} (isPresent : source.Present first event) (low : scope.start ≤ event)
    (high : event < scope.stop)
    (acts : image.Sends firstPath event actor ∨ image.Receives firstPath event actor)
    (controls : image.Sends firstPath scope.start controller) (other : actor ≠ controller) :
    ∃ found, source.Present second found ∧ scope.start ≤ found ∧ found < scope.stop ∧
      (image.Sends secondPath found actor ∨ image.Receives secondPath found actor) := by
  have bounds := Source.routes_bounds mem
  have named := (names_iff_acts referenced published firstComplete (by omega) actor).mpr acts
  have notController : ∀ pair, image.events[scope.start]? = some pair →
      ¬ Denotes image.choices first pair.sender actor := fun pair isPair isController =>
    other (isController.unique
      ((sends_iff referenced published firstComplete (by omega) isPair controller).mp controls))
  obtain ⟨found, foundPresent, foundLow, foundHigh, foundNamed⟩ :=
    Checker.actsIn_of_none referenced source (Located.of_root source)
      (Nat.le_of_eq (Nat.zero_add _)) (by rintro _ _ ⟨⟩) checked mem
      agree differ ⟨event, isPresent, low, high, named⟩ notController
  exact ⟨found, foundPresent, foundLow, foundHigh,
    (names_iff_acts referenced published secondComplete (by omega) actor).mp foundNamed⟩

end Accepted

/-- The check of a compiled source returns. When it accepts, then in every route, on every
complete path: the sender of a present event controls the route, or has received an earlier
message of the same arm from another endpoint; and an actor that is not the controller and acts in
the arm that is taken also acts in the other arm, on every complete path that takes it and agrees
outside the route. -/
theorem knowledge_of_choice (symbolCapacity eventCapacity decisionCapacity : Nat) (source : Source)
    (scratch : Scratch) (image : ActorImage)
    (isOk : compileActorImageInto symbolCapacity eventCapacity decisionCapacity source =
      .ok (scratch, image)) :
    (∃ result, image.check source = .ok result) ∧
    (image.check source = .ok true → ∀ scope ∈ source.routes 0,
      (∀ assignment selections, source.Complete selections assignment →
        ∀ event, source.Present assignment event → scope.start ≤ event → event < scope.stop →
          ∃ controller sender, image.Sends selections scope.start controller ∧
            image.Sends selections event sender ∧
            (sender = controller ∨ ∃ earlier message,
              (earlier, message) ∈ source.presentEvents 0 assignment ∧
              scope.start ≤ earlier ∧ earlier < scope.stop ∧
              scope.armAt earlier = scope.armAt event ∧ message.fromKey ≠ message.toKey ∧
              image.Receives selections earlier sender ∧ source.before earlier event = true)) ∧
      ∀ first second firstPath secondPath, source.Complete firstPath first →
        source.Complete secondPath second → Checker.AgreeOutside source scope first second →
        first scope ≠ second scope → ∀ event actor controller,
          source.Present first event → scope.start ≤ event → event < scope.stop →
          image.Sends firstPath event actor ∨ image.Receives firstPath event actor →
          image.Sends firstPath scope.start controller → actor ≠ controller →
          ∃ other, source.Present second other ∧ scope.start ≤ other ∧ other < scope.stop ∧
            (image.Sends secondPath other actor ∨ image.Receives secondPath other actor)) := by
  have compiled := compiled_of_ok isOk
  have referenced := compiled.referenced
  have certified :=
    Checker.check_spec referenced (eventCount_le_of_compiled isOk) compiled.eventLen
  refine ⟨certified.returns, ?_⟩
  intro isTrue scope mem
  have checked := certified.of_eq isTrue
  refine ⟨?_, ?_⟩
  · intro assignment selections complete event isPresent low high
    exact sender_knows referenced compiled.eventLen checked mem complete isPresent low high
  · intro first second firstPath secondPath firstComplete secondComplete agree differ event actor
      controller isPresent low high acts controls other
    exact acts_in_other referenced compiled.eventLen checked mem firstComplete secondComplete
      agree differ isPresent low high acts controls other

/-- Role 0 hands endpoint 5 to role 1 or to role 2, which tells the other role, and the holder then
sends to role 3. -/
def announcedHandover : Source :=
  .seq (.route
      (.seq (.send ⟨⟨0, 0⟩, ⟨0, 1⟩, 0, .endpoint ⟨0, 5⟩⟩) (.send ⟨⟨0, 1⟩, ⟨0, 2⟩, 1, .wire 0⟩))
      (.seq (.send ⟨⟨0, 0⟩, ⟨0, 2⟩, 2, .endpoint ⟨0, 5⟩⟩) (.send ⟨⟨0, 2⟩, ⟨0, 1⟩, 3, .wire 0⟩))
      none)
    (.send ⟨⟨0, 5⟩, ⟨0, 3⟩, 4, .wire 0⟩)

/-- The scratch of this source. -/
def announcedScratch : Scratch where
  symbols := [⟨⟨0, 0⟩, .control⟩, ⟨⟨0, 1⟩, .control⟩, ⟨⟨0, 5⟩, .delegated⟩, ⟨⟨0, 2⟩, .control⟩,
    ⟨⟨0, 3⟩, .control⟩]
  initial := [⟨0, 0, none⟩, ⟨1, 0, none⟩, ⟨2, 0, some 0⟩, ⟨3, 0, none⟩, ⟨4, 0, none⟩]
  events := announcedHandover.messages

/-- The image of this source. -/
def announcedImage : ActorImage where
  events := [⟨0, 1⟩, ⟨1, 2⟩, ⟨0, 2⟩, ⟨2, 1⟩, ⟨256, 3⟩]
  choices := [⟨⟨0, 2, 4⟩, 1, 2⟩]
  eventLen := 5

theorem announcedHandover_compiled :
    compileActorImageInto 5 5 1 announcedHandover = .ok (announcedScratch, announcedImage) := by
  decide +kernel

theorem announcedHandover_checked : announcedImage.check announcedHandover = .ok true := by
  decide +kernel

theorem announcedHandover_knowledge :
    announcedImage.check announcedHandover = .ok true ∧
      ∃ controller sender, announcedImage.Sends [⟨⟨0, 2, 4⟩, .left⟩] 0 controller ∧
        announcedImage.Sends [⟨⟨0, 2, 4⟩, .left⟩] 1 sender := by
  refine ⟨announcedHandover_checked, ?_⟩
  have complete : announcedHandover.Complete [⟨⟨0, 2, 4⟩, .left⟩] fun _ => .left := by
    intro scope mem
    obtain rfl : scope = ⟨0, 2, 4⟩ := by
      simpa [announcedHandover, Source.routes, routeScope, Source.eventCount] using mem
    rfl
  obtain ⟨controller, sender, controls, sends, _⟩ :=
    ((knowledge_of_choice 5 5 1 announcedHandover announcedScratch announcedImage
      announcedHandover_compiled).2 announcedHandover_checked ⟨0, 2, 4⟩ (by decide)).1
      (fun _ => .left) _ complete 1 (by decide) (by decide) (by decide)
  exact ⟨controller, sender, controls, sends⟩

end Hibana
