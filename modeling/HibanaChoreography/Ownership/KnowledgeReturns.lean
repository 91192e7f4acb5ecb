/-
This file proves that the check of knowledge of choice returns on every compiled image, and
what it has verified when it finds no conflict.

Presence splits only on decisions that the path leaves open, and matching presence
compares the arms assignment by assignment. The sweep over the pending decisions
finds the actors at which the references of an event may end. A role that some
event of a checked subtree names takes part on every assignment.
-/

import HibanaChoreography.Ownership.KnowledgeSoundness

namespace Hibana

open Outcome List

namespace Checker

variable {root source part body : Source} {image : ActorImage} {env : Assignment} {path : Context}
  {scope : Scope} {reference event start partStart controller : Nat} {pair : ActorPair}
  {actor role : UInt8} {choices : List ActorChoice}

/-! ### Presence -/

/-- The event is sent or received by the role, if it is present. -/
def Names (image : ActorImage) (assignment : Assignment) (role : UInt8) (event : Nat) : Prop :=
  ∃ pair, image.events[event]? = some pair ∧
    (Denotes image.choices assignment pair.sender role ∨
      Denotes image.choices assignment pair.receiver role)

/-- Some event from `start` to `stop`, present or not, names the role. -/
def NamedIn (image : ActorImage) (assignment : Assignment) (role : UInt8) (start stop : Nat) :
    Prop :=
  ∃ event, start ≤ event ∧ event < stop ∧ Names image assignment role event

theorem names_iff (isPair : image.events[event]? = some pair) :
    Names image env role event ↔ Denotes image.choices env pair.sender role ∨
      Denotes image.choices env pair.receiver role := by
  constructor
  · rintro ⟨other, isOther, named⟩
    cases isPair.symm.trans isOther
    exact named
  · exact fun named => ⟨pair, isPair, named⟩

theorem namedIn_range {stop : Nat} :
    NamedIn image env role start stop ↔
      ∃ event ∈ List.range' start (stop - start), Names image env role event := by
  simp only [NamedIn, mem_range'_1]
  refine exists_congr fun event => ?_
  rw [← and_assoc]
  refine and_congr_left fun _ => ?_
  omega

/-- The routes that the decisions of the image are about. -/
def decisionScopes (image : ActorImage) : List Scope := image.choices.map ActorChoice.scope

/-- A presence waits only for decisions that the path leaves open. -/
def WaitsOpen (image : ActorImage) (path : Context) (unresolved : Option Scope) : Prop :=
  ∀ scope, unresolved = some scope → scope ∈ decisionScopes image ∧ path.get scope = none

theorem WaitsOpen.or {first second : Option Scope} (isFirst : WaitsOpen image path first)
    (isSecond : WaitsOpen image path second) : WaitsOpen image path (first.or second) := by
  intro scope found
  rcases Option.or_eq_some_iff.mp found with inFirst | ⟨_, inSecond⟩
  · exact isFirst scope inFirst
  · exact isSecond scope inSecond

/-- A presence that is known decides the condition on every assignment of the path. -/
structure Tells (image : ActorImage) (path : Context) (presence : Presence)
    (condition : Assignment → Prop) : Prop where
  waits : WaitsOpen image path presence.unresolved
  known : ∀ isPresent, presence = .known isPresent →
    ∀ env, path.Agrees env → (condition env ↔ isPresent = true)

/-- A presence that is not known to hold is known to fail, or waits for a decision. -/
theorem Tells.not_of_resolved {presence : Presence} {condition : Assignment → Prop}
    (tells : Tells image path presence condition) (notTrue : presence ≠ .known true)
    (resolved : presence.unresolved = none) (agrees : path.Agrees env) : ¬ condition env := by
  cases presence with
  | choice scope => cases resolved
  | known isPresent =>
    rw [tells.known _ rfl env agrees]
    rintro rfl
    exact notTrue rfl

theorem referencePresence_spec (valid : DecisionsValid root image.choices) (role : UInt8)
    (path : Context) (bounded : Bounded image.choices reference) :
    ∃ presence, referencePresence image reference role path = .ok presence ∧
      Tells image path presence fun env => Denotes image.choices env reference role := by
  obtain ⟨result, isResult, followed, same⟩ := selected_spec valid path bounded
  rw [referencePresence, isResult, Run.bind_ok]
  split
  · rename_i isActor
    refine ⟨_, rfl, by rintro scope ⟨⟩, ?_⟩
    rintro _ ⟨⟩ env agrees
    rw [same env agrees, denotes_actor_iff isActor, decide_eq_true_iff]
  · rename_i isDecision
    obtain ⟨choice, present, isOpen⟩ := followed.isOpen (Nat.not_lt.mp isDecision)
    rw [choiceAt_ok _ present, Run.bind_ok]
    refine ⟨_, rfl, ?_, nofun⟩
    rintro scope ⟨⟩
    exact ⟨mem_map_of_mem (mem_of_getElem? present), isOpen⟩

/-- What the presence of events says; a decision met before keeps it from failing. -/
theorem eventsPresence_spec (referenced : Referenced root image) (role : UInt8) (path : Context)
    (events : List Nat) (inside : ∀ event ∈ events, event < root.eventCount)
    {unresolved : Option Scope} (waits : WaitsOpen image path unresolved) :
    ∃ presence, eventsPresence image role path unresolved events = .ok presence ∧
      Tells image path presence (fun env => ∃ event ∈ events, Names image env role event) ∧
      (presence = .known false → unresolved = none) := by
  induction events generalizing unresolved with
  | nil =>
    cases unresolved with
    | none => exact ⟨_, rfl, ⟨waits, by rintro _ ⟨⟩ env _; simp⟩, fun _ => rfl⟩
    | some scope => exact ⟨_, rfl, ⟨waits, nofun⟩, nofun⟩
  | cons event events hyp =>
    obtain ⟨headInside, tailInside⟩ := forall_mem_cons.mp inside
    obtain ⟨pair, paired⟩ := referenced.pair event headInside
    obtain ⟨sender, isSender, senderTells⟩ :=
      referencePresence_spec referenced.valid role path paired.sender
    obtain ⟨receiver, isReceiver, receiverTells⟩ :=
      referencePresence_spec referenced.valid role path paired.receiver
    simp only [eventsPresence, pairAt_ok paired.present, isSender, isReceiver, Run.bind_ok,
      exists_mem_cons_iff, names_iff paired.present]
    split
    · rename_i senderTrue
      refine ⟨_, rfl, ⟨by rintro scope ⟨⟩, ?_⟩, nofun⟩
      rintro _ ⟨⟩ env agrees
      exact iff_of_true (.inl (.inl ((senderTells.known _ senderTrue env agrees).mpr rfl))) rfl
    · rename_i senderOther
      split
      · rename_i receiverTrue
        refine ⟨_, rfl, ⟨by rintro scope ⟨⟩, ?_⟩, nofun⟩
        rintro _ ⟨⟩ env agrees
        exact iff_of_true (.inl
          (.inr ((receiverTells.known _ receiverTrue env agrees).mpr rfl))) rfl
      · rename_i receiverOther
        obtain ⟨presence, isPresence, tells, resolved⟩ :=
          hyp tailInside ((waits.or senderTells.waits).or receiverTells.waits)
        simp only [Option.or_eq_none_iff] at resolved
        refine ⟨presence, isPresence, ⟨tells.waits, ?_⟩, fun isFalse => (resolved isFalse).1.1⟩
        rintro isPresent rfl env agrees
        rw [← tells.known _ rfl env agrees]
        refine ⟨fun named => ?_, .inr⟩
        cases isPresent with
        | true => exact (tells.known _ rfl env agrees).mpr rfl
        | false =>
          obtain ⟨⟨_, senderResolved⟩, receiverResolved⟩ := resolved rfl
          exact named.resolve_left (not_or.mpr
            ⟨senderTells.not_of_resolved senderOther senderResolved agrees,
              receiverTells.not_of_resolved receiverOther receiverResolved agrees⟩)

theorem memberPresence_spec (referenced : Referenced root image) (start : Nat) {stop : Nat}
    (role : UInt8) (path : Context) (inside : stop ≤ root.eventCount) :
    ∃ presence, memberPresence image start stop role path = .ok presence ∧
      Tells image path presence fun env => NamedIn image env role start stop := by
  obtain ⟨presence, isPresence, tells, _⟩ := eventsPresence_spec referenced role path
    (List.range' start (stop - start)) (fun event mem => by
      have bounds := mem_range'_1.mp mem
      omega) (show WaitsOpen image path none from nofun)
  simp only [← namedIn_range] at tells
  exact ⟨presence, isPresence, tells⟩

/-- A comparison that accepts has two equal presences. -/
theorem known_of_comparePresence {controller left right : Presence}
    (isTrue : comparePresence controller left right = some true) :
    ∃ isPresent, left = .known isPresent ∧ right = .known isPresent := by
  unfold comparePresence at isTrue
  split at isTrue
  · split at isTrue
    · rename_i same
      exact ⟨_, rfl, by rw [same]⟩
    · split at isTrue <;> cases isTrue
  · cases isTrue

/-- Two presences that are known, with a controller that is known not to be the role, compare. -/
theorem unresolved_of_comparePresence {controller left right : Presence}
    (notController : controller ≠ .known true)
    (isOpen : comparePresence controller left right = none) :
    controller.unresolved.or (left.unresolved.or right.unresolved) ≠ none := by
  intro resolved
  simp only [Option.or_eq_none_iff] at resolved
  cases controller with
  | choice scope => cases resolved.1
  | known isController =>
    cases left with
    | choice scope => cases resolved.2.1
    | known onLeft =>
      cases right with
      | choice scope => cases resolved.2.2
      | known onRight =>
        cases isController with
        | true => exact notController rfl
        | false =>
          simp only [comparePresence, if_true] at isOpen
          split at isOpen <;> cases isOpen

/-- On every assignment of the path the role controls the route, or is named in both arms or in
neither. -/
def Balanced (image : ActorImage) (scope : Scope) (role : UInt8) (controller : Nat)
    (path : Context) : Prop :=
  ∀ env, path.Agrees env → Denotes image.choices env controller role ∨
    (NamedIn image env role scope.start scope.split ↔
      NamedIn image env role scope.split scope.stop)

theorem matchingPresenceFuel_spec (referenced : Referenced root image) (role : UInt8)
    (bounded : Bounded image.choices controller) (ordered : scope.split ≤ scope.stop)
    (inside : scope.stop ≤ root.eventCount) (fuel : Nat) (path : Context)
    (enough : (Context.openScopes (decisionScopes image) path).card < fuel) :
    Run.Certifies true (matchingPresenceFuel image scope role controller fuel path)
      (Balanced image scope role controller path) := by
  induction fuel generalizing path with
  | zero => omega
  | succ fuel hyp =>
    obtain ⟨presence, isPresence, tells⟩ :=
      referencePresence_spec referenced.valid role path bounded
    obtain ⟨left, isLeft, leftTells⟩ :=
      memberPresence_spec referenced scope.start role path (ordered.trans inside)
    obtain ⟨right, isRight, rightTells⟩ :=
      memberPresence_spec referenced scope.split role path inside
    simp only [matchingPresenceFuel, isPresence, isLeft, isRight, Run.bind_ok]
    split
    · rename_i isController
      exact .of_ok fun env agrees => .inl ((tells.known _ isController env agrees).mpr rfl)
    · rename_i notController
      split
      · rename_i result isCompared
        refine ⟨result, rfl, ?_⟩
        rintro rfl env agrees
        obtain ⟨isPresent, onLeft, onRight⟩ := known_of_comparePresence isCompared
        exact .inr ((leftTells.known _ onLeft env agrees).trans
          (rightTells.known _ onRight env agrees).symm)
      · rename_i isOpen
        split
        · rename_i resolved
          exact absurd resolved (unresolved_of_comparePresence notController isOpen)
        · rename_i decision isDecision
          obtain ⟨mem, stillOpen⟩ :=
            (tells.waits.or (leftTells.waits.or rightTells.waits)) decision isDecision
          have step : ∀ arm, Run.Certifies true (matchingPresenceFuel image scope role controller
              fuel (path.select ⟨decision, arm⟩))
              (Balanced image scope role controller (path.select ⟨decision, arm⟩)) := fun arm => by
            have fewer := Context.openScopes_select_lt mem stillOpen arm
            exact hyp _ (by omega)
          exact (certifies_arms step).mono fun onArms env agrees =>
            onArms _ env (agrees.select rfl)

theorem matchingPresence_spec (referenced : Referenced root image) (role : UInt8)
    (bounded : Bounded image.choices controller) (ordered : scope.split ≤ scope.stop)
    (inside : scope.stop ≤ root.eventCount) (path : Context) :
    Run.Certifies true (matchingPresence image scope role controller path)
      (Balanced image scope role controller path) := by
  refine matchingPresenceFuel_spec referenced role bounded ordered inside _ path ?_
  have few := Context.openScopes_card_le (decisionScopes image) path
  rw [decisionScopes, length_map] at few
  exact Nat.lt_succ_of_le few

/-! ### Participants -/

/-- The actor is found, or a pending decision below the bound may end at it. -/
def Found (choices : List ActorChoice) (bound : Nat) (membership : ActorImage.Membership)
    (actor : UInt8) : Prop :=
  actor ∈ membership.actors ∨
    ∃ index ∈ membership.pending, index < bound ∧ Leaf choices (index + ActorRef.nodeBase) actor

theorem found_succ {bound : Nat} {membership : ActorImage.Membership} :
    Found choices (bound + 1) membership actor ↔ Found choices bound membership actor ∨
      (bound ∈ membership.pending ∧ Leaf choices (bound + ActorRef.nodeBase) actor) := by
  simp only [Found, Nat.lt_succ_iff_lt_or_eq]
  grind

/-- Noting a reference adds the actors at which it may end. -/
theorem note_spec (choices : List ActorChoice) (bound : Nat) (membership : ActorImage.Membership)
    {limit : Nat} (message : String) (below : reference < limit + ActorRef.nodeBase)
    (inBound : reference < bound + ActorRef.nodeBase) :
    ∃ next, membership.note limit message reference = .ok next ∧ ∀ actor,
      Found choices bound next actor ↔
        Found choices bound membership actor ∨ Leaf choices reference actor := by
  unfold ActorImage.Membership.note
  split
  · rename_i isActor
    refine ⟨_, rfl, fun actor => ?_⟩
    rw [leaf_actor_iff isActor, Found, Found, Finset.mem_insert]
    exact or_assoc.trans or_comm
  · rename_i isDecision
    rw [if_neg (by omega)]
    refine ⟨_, rfl, fun actor => ?_⟩
    have shape : reference - ActorRef.nodeBase + ActorRef.nodeBase = reference := by omega
    have inside : reference - ActorRef.nodeBase < bound := by omega
    simp only [Found, Finset.exists_mem_insert, shape, inside, true_and]
    rw [or_assoc]
    exact or_congr_right or_comm

theorem visitPending_spec (valid : DecisionsValid root image.choices) (bound : Nat)
    (inside : bound ≤ image.choices.length) (membership : ActorImage.Membership) :
    ∃ actors, image.visitPending bound membership = .ok actors ∧
      ∀ actor, actor ∈ actors ↔ Found image.choices bound membership actor := by
  induction bound generalizing membership with
  | zero => exact ⟨_, rfl, fun actor => by simp [Found]⟩
  | succ bound hyp =>
    unfold ActorImage.visitPending
    split
    · rename_i isPending
      have present : image.choices[bound]? = some image.choices[bound] :=
        getElem?_eq_getElem (by omega)
      rw [present]
      have backward := valid.backward _ _ present
      obtain ⟨afterLeft, isLeft, leftFound⟩ := note_spec image.choices bound membership
        "actor membership reference is not backward" (backward .left) (backward .left)
      obtain ⟨afterRight, isRight, rightFound⟩ := note_spec image.choices bound afterLeft
        "actor membership reference is not backward" (backward .right) (backward .right)
      obtain ⟨actors, isActors, found⟩ := hyp (by omega) afterRight
      simp only [ActorChoice.child] at isLeft isRight
      simp only [isLeft, isRight, Run.bind_ok]
      refine ⟨actors, isActors, fun actor => ?_⟩
      rw [found, rightFound, leftFound, or_assoc, found_succ, leaf_decision_iff present]
      simp only [isPending, true_and, ActorChoice.child]
    · rename_i notPending
      obtain ⟨actors, isActors, found⟩ := hyp (by omega) membership
      refine ⟨actors, isActors, fun actor => ?_⟩
      simp only [found, found_succ, notPending, false_and, or_false]

/-- The possible actors of an event are those at which its references may end. -/
theorem possibleActors_spec (referenced : Referenced root image)
    (published : image.eventLen = root.eventCount) (inside : event < root.eventCount)
    (isPair : image.events[event]? = some pair) :
    ∃ actors, image.possibleActors event = .ok actors ∧ ∀ actor, actor ∈ actors ↔
      Leaf image.choices pair.sender actor ∨ Leaf image.choices pair.receiver actor := by
  have paired := referenced.of_events inside isPair
  have sender := paired.sender
  have receiver := paired.receiver
  unfold Bounded at sender receiver
  rw [ActorImage.possibleActors, ActorImage.includePossibleActors, if_neg (by omega),
    pairAt_ok isPair, Run.bind_ok]
  generalize isBound : max (pair.sender + 1 - ActorRef.nodeBase)
    (pair.receiver + 1 - ActorRef.nodeBase) = bound
  obtain ⟨afterSender, isSender, senderFound⟩ := note_spec image.choices bound ⟨∅, ∅⟩
    "actor membership reference outside source" sender (by omega)
  obtain ⟨afterReceiver, isReceiver, receiverFound⟩ := note_spec image.choices bound afterSender
    "actor membership reference outside source" receiver (by omega)
  obtain ⟨actors, isActors, found⟩ :=
    visitPending_spec referenced.valid bound (by omega) afterReceiver
  simp only [Run.bind_ok, isSender, isReceiver]
  refine ⟨actors, isActors, fun actor => ?_⟩
  rw [found, receiverFound, senderFound]
  simp only [Found, Finset.notMem_empty, false_and, exists_false, or_false, false_or]

theorem participantsFrom_spec (referenced : Referenced root image)
    (published : image.eventLen = root.eventCount) (events : List Nat)
    (inside : ∀ event ∈ events, event < root.eventCount) (actors : Finset UInt8) :
    ∃ result, participantsFrom image actors events = .ok result ∧ actors ⊆ result ∧
      ∀ event ∈ events, ∀ env role, Names image env role event → role ∈ result := by
  induction events generalizing actors with
  | nil => exact ⟨actors, rfl, Finset.Subset.refl _, nofun⟩
  | cons event events hyp =>
    obtain ⟨headInside, tailInside⟩ := forall_mem_cons.mp inside
    obtain ⟨pair, paired⟩ := referenced.pair event headInside
    obtain ⟨candidates, isCandidates, isCandidate⟩ :=
      possibleActors_spec referenced published headInside paired.present
    simp only [participantsFrom, pairAt_ok paired.present, isCandidates, Run.bind_ok]
    split
    · rename_i areActors
      obtain ⟨result, isResult, kept, rest⟩ := hyp tailInside
        (insert (UInt8.ofNat pair.receiver) (insert (UInt8.ofNat pair.sender) actors))
      refine ⟨result, isResult, ((Finset.subset_insert _ _).trans (Finset.subset_insert _ _)).trans
        kept, forall_mem_cons.mpr ⟨fun env role named => kept ?_, rest⟩⟩
      rw [names_iff paired.present, denotes_actor_iff areActors.1, denotes_actor_iff areActors.2]
        at named
      rcases named with isSender | isReceiver
      · rw [isSender, UInt8.ofNat_toNat]
        exact Finset.mem_insert_of_mem (Finset.mem_insert_self _ _)
      · rw [isReceiver, UInt8.ofNat_toNat]
        exact Finset.mem_insert_self _ _
    · obtain ⟨result, isResult, kept, rest⟩ := hyp tailInside (actors ∪ candidates)
      refine ⟨result, isResult, Finset.subset_union_left.trans kept,
        forall_mem_cons.mpr ⟨fun env role named => kept ?_, rest⟩⟩
      exact Finset.mem_union_right _ ((isCandidate role).mpr
        (((names_iff paired.present).mp named).imp Denotes.leaf Denotes.leaf))

/-- In a route without a conflict of roles, every role controls it, or is named in both arms or
in neither. -/
theorem roleConflict_spec (referenced : Referenced root image)
    (published : image.eventLen = root.eventCount) (ordered : scope.start ≤ scope.split)
    (split : scope.split ≤ scope.stop) (inside : scope.stop ≤ root.eventCount)
    (bounded : Bounded image.choices controller) (path : Context) :
    Run.Certifies none (roleConflict image scope controller path)
      (∀ role, Balanced image scope role controller path) := by
  obtain ⟨members, isMembers, _, named⟩ := participantsFrom_spec referenced published
    (List.range' scope.start (scope.stop - scope.start)) (fun event mem => by
      have bounds := mem_range'_1.mp mem
      omega) ∅
  rw [roleConflict, participants, isMembers, Run.bind_ok]
  refine Run.Certifies.mono (.findSomeM fun role _ => ?_ : Run.Certifies none _
      (∀ role ∈ List.range 256, Balanced image scope (UInt8.ofNat role) controller path))
    fun balanced role => ?_
  · split
    · obtain ⟨result, isResult, certain⟩ := matchingPresence_spec referenced (UInt8.ofNat role)
        bounded split inside path
      rw [isResult, Run.bind_ok]
      cases result with
      | true => exact .of_ok (certain rfl)
      | false => exact .of_ne (Option.some_ne_none _)
    · rename_i absent
      -- No event of the route names a role that is not a participant.
      have unnamed : ∀ env event, scope.start ≤ event → event < scope.stop →
          ¬ Names image env (UInt8.ofNat role) event := fun env event low high isNamed =>
        absent (named event (mem_range'_1.mpr ⟨low, by omega⟩) env _ isNamed)
      refine .of_ok fun env agrees => .inr (iff_of_false ?_ ?_)
      · rintro ⟨event, low, high, isNamed⟩
        exact unnamed env event low (by omega) isNamed
      · rintro ⟨event, low, high, isNamed⟩
        exact unnamed env event (by omega) high isNamed
  · rw [← UInt8.ofNat_toNat (x := role)]
    exact balanced role.toNat (mem_range.mpr role.toNat_lt)

/-! ### Routes without a conflict -/

/-- What the checker has verified for a route. -/
structure RouteChecked (image : ActorImage) (left right : Source) (start : Nat) (path : Context)
    (controller : Nat) : Prop where
  first : ∃ pair, image.events[start]? = some pair ∧ pair.sender = controller
  roles : ∀ role, Balanced image (routeScope start left right) role controller path
  onLeft : ArmChecked image left start controller
    (path.select ⟨routeScope start left right, .left⟩)
  onRight : ArmChecked image right (start + left.eventCount) controller
    (path.select ⟨routeScope start left right, .right⟩)

/-- The checker has verified every route of a subtree. -/
def Checked (image : ActorImage) : Source → Nat → Context → Prop
  | .send _, _, _ => True
  | .seq left right, start, path | .par left right, start, path =>
    Checked image left start path ∧ Checked image right (start + left.eventCount) path
  | .route left right _, start, path =>
    (∃ controller, RouteChecked image left right start path controller) ∧
      Checked image left start (path.select ⟨routeScope start left right, .left⟩) ∧
      Checked image right (start + left.eventCount)
        (path.select ⟨routeScope start left right, .right⟩)
  | .roll body, start, path => Checked image body start path

theorem nestedConflict_spec (referenced : Referenced root image) (small : root.eventCount ≤ 65535)
    (published : image.eventLen = root.eventCount) (source : Source) (path : Context)
    (inside : start + source.eventCount ≤ root.eventCount) :
    Run.Certifies none (nestedConflict image source start path)
      (Checked image source start path) := by
  induction source generalizing start path with
  | send message => exact .of_ok trivial
  | seq left right hypLeft hypRight | par left right hypLeft hypRight =>
    simp only [Source.eventCount] at inside
    exact (hypLeft path (by omega)).firstSome (hypRight path (by omega))
  | route left right resolver hypLeft hypRight =>
    simp only [Source.eventCount] at inside
    have leftPos := left.eventCount_pos
    obtain ⟨pair, paired⟩ := referenced.pair start (by omega)
    rw [nestedConflict, scopeAt_ok small inside, Run.bind_ok, pairAt_ok paired.present, Run.bind_ok]
    have stop : (routeScope start left right).stop ≤ root.eventCount := by
      simp only [routeScope]
      omega
    refine Run.Certifies.mono
      (.firstSome (roleConflict_spec referenced published (Nat.le_add_right _ _)
        (Nat.le_add_right _ _) stop paired.sender path) <|
      .firstSome (armConflict_spec referenced small left _ (by omega) paired.sender) <|
      .firstSome (armConflict_spec referenced small right _ stop paired.sender) <|
      .firstSome (hypLeft _ (by omega)) (hypRight _ stop)) ?_
    rintro ⟨roles, onLeft, onRight, inner⟩
    exact ⟨⟨pair.sender, ⟨pair, paired.present, rfl⟩, roles, onLeft, onRight⟩, inner⟩
  | roll body hypBody => exact hypBody path inside

/-- The check of an image that was compiled for its source returns, and when it accepts it has
verified every route. -/
theorem check_spec (referenced : Referenced root image) (small : root.eventCount ≤ 65535)
    (published : image.eventLen = root.eventCount) :
    Run.Certifies true (image.check root) (Checked image root 0 (Context.new [])) := by
  obtain ⟨conflict, isConflict, checked⟩ := nestedConflict_spec referenced small published root
    (Context.new []) (Nat.le_of_eq (Nat.zero_add _))
  rw [ActorImage.check, ActorImage.conflict, if_neg (not_not.mpr published.symm), isConflict,
    Run.bind_ok]
  exact ⟨_, rfl, fun isNone => checked (Option.isNone_iff_eq_none.mp isNone)⟩

/-- A present event of the subtree names the role. -/
def Acts (image : ActorImage) (source : Source) (start : Nat) (assignment : Assignment)
    (role : UInt8) : Prop :=
  ∃ event ∈ source.positions start assignment, Names image assignment role event

theorem Acts.mono (within : ∀ event ∈ part.presentEvents partStart env,
      event ∈ source.presentEvents start env)
    (acts : Acts image part partStart env role) : Acts image source start env role := by
  obtain ⟨_, mem, named⟩ := acts
  obtain ⟨event, isEvent, rfl⟩ := mem_map.mp mem
  exact ⟨_, mem_map_of_mem (within event isEvent), named⟩

/-- The controller of a route sends the first present event of the arm that is taken. -/
theorem controller_acts (referenced : Referenced root image)
    (inside : start + body.eventCount ≤ root.eventCount) (agrees : path.Agrees env)
    (checked : ArmChecked image body start controller path)
    (isController : Denotes image.choices env controller role) :
    Acts image body start env role := by
  obtain ⟨first, isPresent, isFirst⟩ := body.exists_first_position start env
  have bounds := Source.positions_bounds isPresent
  obtain ⟨pair, paired⟩ := referenced.pair first (by omega)
  obtain ⟨actor, denotes⟩ := paired.sender.exists_denotes referenced.valid env
  refine ⟨first, isPresent, pair, paired.present, .inl ?_⟩
  rcases checked first (mem_range'_1.mpr bounds) pair paired.present env agrees isPresent actor
    denotes with sameActor | ⟨earlier, informs, isBefore⟩
  · rwa [isController.unique sameActor]
  · obtain ⟨message, _, earlierPresent, _⟩ := informs
    have notEarlier := isFirst earlier (mem_map_of_mem earlierPresent)
    have ordered := Source.lt_of_before isBefore
    omega

/-- In a subtree without conflicts, a role that some event names takes part on every assignment:
where the event that names it is not present, another one is. -/
theorem acts_of_namedIn (referenced : Referenced root image) (source : Source)
    (inside : start + source.eventCount ≤ root.eventCount) (agrees : path.Agrees env)
    (checked : Checked image source start path)
    (named : NamedIn image env role start (start + source.eventCount)) :
    Acts image source start env role := by
  induction source generalizing start path with
  | send message =>
    obtain ⟨event, low, high, names⟩ := named
    simp only [Source.eventCount] at high
    obtain rfl : event = start := by omega
    exact ⟨event, mem_singleton_self _, names⟩
  | seq left right hypLeft hypRight | par left right hypLeft hypRight =>
    simp only [Source.eventCount] at inside named
    obtain ⟨event, low, high, names⟩ := named
    by_cases inLeft : event < start + left.eventCount
    · exact (hypLeft (by omega) agrees checked.1 ⟨event, low, inLeft, names⟩).mono
        fun _ => mem_append_left _
    · exact (hypRight (by omega) agrees checked.2 ⟨event, by omega, by omega, names⟩).mono
        fun _ => mem_append_right _
  | route left right resolver hypLeft hypRight =>
    simp only [Source.eventCount] at inside named
    obtain ⟨⟨controller, routeChecked⟩, innerLeft, innerRight⟩ := checked
    obtain ⟨event, low, high, names⟩ := named
    have balanced := routeChecked.roles role env agrees
    simp only [routeScope] at balanced
    cases chosen : env (routeScope start left right) with
    | left =>
      refine Acts.mono (Source.PartOf.route_left chosen).present ?_
      have onPath := agrees.select chosen
      by_cases inLeft : event < start + left.eventCount
      · exact hypLeft (by omega) onPath innerLeft ⟨event, low, inLeft, names⟩
      · rcases balanced with isController | sameArms
        · exact controller_acts referenced (by omega) onPath routeChecked.onLeft isController
        · exact hypLeft (by omega) onPath innerLeft
            (sameArms.mpr ⟨event, by omega, by omega, names⟩)
    | right =>
      refine Acts.mono (Source.PartOf.route_right chosen).present ?_
      have onPath := agrees.select chosen
      by_cases inLeft : event < start + left.eventCount
      · rcases balanced with isController | sameArms
        · exact controller_acts referenced (by omega) onPath routeChecked.onRight isController
        · exact hypRight (by omega) onPath innerRight (sameArms.mp ⟨event, low, inLeft, names⟩)
      · exact hypRight (by omega) onPath innerRight ⟨event, by omega, by omega, names⟩
  | roll body hypBody => exact hypBody inside agrees checked named

end Checker

end Hibana
