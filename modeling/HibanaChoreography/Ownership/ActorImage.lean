/-
This file proves that the compiled actor image agrees with replay.

A reference of the image denotes one actor on every route assignment. Decisions
refer only to earlier decisions, so following a reference ends on every control
path. Lowering an endpoint at a position emits a reference that denotes its holder
there on every assignment of the path, and later decisions do not change what a
reference denotes. Hence both references of an event denote the holders that
replay finds in front of it.
-/

import HibanaChoreography.Ownership.Actors
import HibanaChoreography.Ownership.Characterization

namespace Hibana

open Outcome List

/-! ### References -/

/-- The actor that a reference denotes on an assignment. -/
inductive Denotes (choices : List ActorChoice) (assignment : Assignment) :
    Nat → UInt8 → Prop
  | actor (actor : UInt8) : Denotes choices assignment (ActorRef.actor actor) actor
  | decision {index : Nat} {choice : ActorChoice} {actor : UInt8}
      (present : choices[index]? = some choice)
      (child : Denotes choices assignment (choice.child (assignment choice.scope)) actor) :
      Denotes choices assignment (index + ActorRef.nodeBase) actor

variable {choices more : List ActorChoice} {env : Assignment} {reference index event : Nat}
  {actor : UInt8} {scope : Scope} {choice : ActorChoice} {source : Source} {image : ActorImage}
  {initial : Holders} {message : Message} {scratch : Scratch}

/-- More decisions behind the old ones change nothing. -/
theorem Denotes.mono (denotes : Denotes choices env reference actor)
    (extends_ : choices <+: more) : Denotes more env reference actor := by
  induction denotes with
  | actor actor => exact .actor actor
  | decision present _ hyp =>
    obtain ⟨added, rfl⟩ := extends_
    have inside := (List.getElem?_eq_some_iff.mp present).1
    exact .decision (by rw [getElem?_append_left inside]; exact present) hyp

/-- The routes that a reference may be decided by. -/
inductive Reads (choices : List ActorChoice) : Nat → Scope → Prop
  | here {index : Nat} {choice : ActorChoice} (present : choices[index]? = some choice) :
      Reads choices (index + ActorRef.nodeBase) choice.scope
  | child {index : Nat} {choice : ActorChoice} {scope : Scope} (arm : Arm)
      (present : choices[index]? = some choice) (reads : Reads choices (choice.child arm) scope) :
      Reads choices (index + ActorRef.nodeBase) scope

/-- What a reference denotes depends only on the routes that it reads. -/
theorem Denotes.congr {first second : Assignment} (denotes : Denotes choices first reference actor)
    (agree : ∀ scope, Reads choices reference scope → first scope = second scope) :
    Denotes choices second reference actor := by
  induction denotes with
  | actor actor => exact .actor actor
  | decision present _ hyp =>
    refine .decision present ?_
    rw [← agree _ (.here present)]
    exact hyp fun scope reads => agree scope (.child _ present reads)

/-- The shape of the decisions of an image: every reference points backwards, children differ,
and every decision is about a route of the source. -/
structure DecisionsValid (source : Source) (choices : List ActorChoice) : Prop where
  backward : ∀ (index : Nat) (choice : ActorChoice), choices[index]? = some choice → ∀ arm,
    choice.child arm < index + ActorRef.nodeBase
  reduced : ∀ (index : Nat) (choice : ActorChoice), choices[index]? = some choice →
    choice.left ≠ choice.right
  scopes : ∀ (index : Nat) (choice : ActorChoice), choices[index]? = some choice →
    choice.scope ∈ source.routes 0

/-- The reference names an actor or a decision that is there. -/
def Bounded (choices : List ActorChoice) (reference : Nat) : Prop :=
  reference < choices.length + ActorRef.nodeBase

theorem Bounded.mono (bounded : Bounded choices reference) (extends_ : choices <+: more) :
    Bounded more reference :=
  Nat.lt_of_lt_of_le bounded (Nat.add_le_add_right extends_.length_le _)

theorem bounded_actor (choices : List ActorChoice) (actor : UInt8) :
    Bounded choices (ActorRef.actor actor) :=
  Nat.lt_of_lt_of_le actor.toNat_lt (Nat.le_add_left _ _)

theorem actor_lt (actor : UInt8) : ActorRef.actor actor < ActorRef.nodeBase := actor.toNat_lt

theorem ofNat_actor (actor : UInt8) : UInt8.ofNat (ActorRef.actor actor) = actor :=
  UInt8.ofNat_toNat

theorem not_reads_actor : ¬ Reads choices (ActorRef.actor actor) scope := by
  intro reads
  have small := actor_lt actor
  generalize ActorRef.actor actor = reference at reads small
  cases reads <;> omega

theorem reads_decision (present : choices[index]? = some choice)
    (reads : Reads choices (index + ActorRef.nodeBase) scope) :
    scope = choice.scope ∨ Reads choices choice.left scope ∨ Reads choices choice.right scope := by
  generalize same : index + ActorRef.nodeBase = reference at reads
  cases reads with
  | here found =>
    rename_i other node
    obtain rfl : index = other := by omega
    rw [present] at found
    cases found
    exact .inl rfl
  | child arm found reads =>
    rename_i other node
    obtain rfl : index = other := by omega
    rw [present] at found
    cases found
    cases arm with
    | left => exact .inr (.inl reads)
    | right => exact .inr (.inr reads)

/-- Later decisions are not read by an earlier reference. -/
theorem Reads.of_prefix (reads : Reads more reference scope) (extends_ : choices <+: more)
    (valid : DecisionsValid source choices) (bounded : Bounded choices reference) :
    Reads choices reference scope := by
  obtain ⟨added, rfl⟩ := extends_
  induction reads with
  | here present =>
    rename_i index choice
    have inside : index < choices.length := by
      unfold Bounded at bounded
      omega
    rw [getElem?_append_left inside] at present
    exact .here present
  | child arm present inChild hyp =>
    rename_i index choice scope
    have inside : index < choices.length := by
      unfold Bounded at bounded
      omega
    rw [getElem?_append_left inside] at present
    have backward := valid.backward index choice present arm
    exact .child arm present (hyp (Nat.lt_trans backward bounded))

/-- The actors at which a reference may end, whatever its decisions decide. -/
inductive Leaf (choices : List ActorChoice) : Nat → UInt8 → Prop
  | actor (actor : UInt8) : Leaf choices (ActorRef.actor actor) actor
  | child {index : Nat} {choice : ActorChoice} {actor : UInt8} (arm : Arm)
      (present : choices[index]? = some choice) (leaf : Leaf choices (choice.child arm) actor) :
      Leaf choices (index + ActorRef.nodeBase) actor

theorem leaf_actor {other : UInt8} (leaf : Leaf choices (ActorRef.actor actor) other) :
    other = actor := by
  have small := actor_lt actor
  generalize same : ActorRef.actor actor = reference at leaf small
  cases leaf with
  | actor => exact (UInt8.toNat_inj.mp same).symm
  | child => omega

theorem leaf_decision (present : choices[index]? = some choice)
    (leaf : Leaf choices (index + ActorRef.nodeBase) actor) :
    Leaf choices choice.left actor ∨ Leaf choices choice.right actor := by
  generalize same : index + ActorRef.nodeBase = reference at leaf
  cases leaf with
  | actor =>
    have small := actor_lt actor
    omega
  | child arm found leaf =>
    rename_i other node
    obtain rfl : index = other := by omega
    rw [present] at found
    cases found
    cases arm with
    | left => exact .inl leaf
    | right => exact .inr leaf

theorem leaf_actor_iff (isActor : reference < ActorRef.nodeBase) :
    Leaf choices reference actor ↔ actor = UInt8.ofNat reference := by
  obtain ⟨role, rfl⟩ : ∃ role, reference = ActorRef.actor role :=
    ⟨_, (UInt8.toNat_ofNat_of_lt' isActor).symm⟩
  rw [ofNat_actor]
  exact ⟨leaf_actor, by rintro rfl; exact .actor _⟩

theorem leaf_decision_iff (present : choices[index]? = some choice) :
    Leaf choices (index + ActorRef.nodeBase) actor ↔
      Leaf choices choice.left actor ∨ Leaf choices choice.right actor :=
  ⟨leaf_decision present, fun leaf => leaf.elim (.child .left present) (.child .right present)⟩

/-- An actor that a reference denotes is one at which it may end. -/
theorem Denotes.leaf (denotes : Denotes choices env reference actor) :
    Leaf choices reference actor := by
  induction denotes with
  | actor actor => exact .actor actor
  | decision present _ hyp => exact .child _ present hyp

/-- Later decisions add no actor to an earlier reference. -/
theorem Leaf.of_prefix (leaf : Leaf more reference actor) (extends_ : choices <+: more)
    (valid : DecisionsValid source choices) (bounded : Bounded choices reference) :
    Leaf choices reference actor := by
  obtain ⟨added, rfl⟩ := extends_
  induction leaf with
  | actor actor => exact .actor actor
  | child arm present below hyp =>
    rename_i index choice actor
    have inside : index < choices.length := by
      unfold Bounded at bounded
      omega
    rw [getElem?_append_left inside] at present
    have backward := valid.backward index choice present arm
    exact .child arm present (hyp (Nat.lt_trans backward bounded))

variable {context : Context}

section Resolve

variable {source : Source} {image : ActorImage}

/-- Fuel that suffices for a reference. -/
def EnoughFuel (fuel : Nat) (reference : Nat) : Prop :=
  reference + 1 - ActorRef.nodeBase < fuel

variable {reference : Nat} {choices : List ActorChoice} {env : Assignment}

theorem EnoughFuel.child {fuel index : Nat}
    (enough : EnoughFuel (fuel + 1) (index + ActorRef.nodeBase))
    (backward : reference < index + ActorRef.nodeBase) : EnoughFuel fuel reference := by
  unfold EnoughFuel at enough ⊢
  omega

/-- The decision that a reference behind the actors names. -/
theorem Bounded.decision (bounded : Bounded choices reference)
    (notActor : ¬ reference < ActorRef.nodeBase) :
    ∃ choice, choices[reference - ActorRef.nodeBase]? = some choice ∧
      reference = (reference - ActorRef.nodeBase) + ActorRef.nodeBase := by
  unfold Bounded at bounded
  have inside : reference - ActorRef.nodeBase < choices.length := by omega
  exact ⟨_, getElem?_eq_getElem inside, by omega⟩

theorem denotes_actor_iff (isActor : reference < ActorRef.nodeBase) (actor : UInt8) :
    Denotes choices env reference actor ↔ reference = actor.toNat := by
  constructor
  · intro denotes
    cases denotes with
    | actor => rfl
    | decision => omega
  · rintro rfl
    exact .actor actor

/-- A decision denotes what its child on the assignment denotes. -/
theorem denotes_decision_iff (isDecision : ActorRef.nodeBase ≤ reference)
    (present : choices[reference - ActorRef.nodeBase]? = some choice) (actor : UInt8) :
    Denotes choices env reference actor ↔
      Denotes choices env (choice.child (env choice.scope)) actor := by
  obtain ⟨index, rfl⟩ := Nat.exists_eq_add_of_le' isDecision
  rw [Nat.add_sub_cancel] at present
  constructor
  · generalize same : index + ActorRef.nodeBase = reference
    intro denotes
    cases denotes with
    | actor =>
      have small := actor_lt actor
      omega
    | decision found denotes =>
      rename_i other node
      obtain rfl : index = other := by omega
      rw [present] at found
      cases found
      exact denotes
  · exact .decision present

theorem Denotes.unique {first second : UInt8} (isFirst : Denotes choices env reference first)
    (isSecond : Denotes choices env reference second) : first = second := by
  induction isFirst with
  | actor first =>
    rw [denotes_actor_iff (actor_lt first)] at isSecond
    exact UInt8.toNat_inj.mp isSecond
  | decision present _ hyp =>
    rename_i index choice first
    refine hyp ((denotes_decision_iff (Nat.le_add_left _ _) ?_ _).mp isSecond)
    rw [Nat.add_sub_cancel]
    exact present

/-- A bounded reference denotes an actor on every assignment. -/
theorem Bounded.exists_denotes (valid : DecisionsValid source choices) (env : Assignment)
    (bounded : Bounded choices reference) : ∃ actor, Denotes choices env reference actor := by
  induction reference using Nat.strong_induction_on with
  | _ reference hyp =>
    by_cases isActor : reference < ActorRef.nodeBase
    · refine ⟨UInt8.ofNat reference, (denotes_actor_iff isActor _).mpr ?_⟩
      exact (UInt8.toNat_ofNat_of_lt' isActor).symm
    · obtain ⟨choice, present, shape⟩ := bounded.decision isActor
      have backward := valid.backward _ choice present (env choice.scope)
      rw [← shape] at backward
      obtain ⟨actor, denotes⟩ := hyp _ backward (Nat.lt_trans backward bounded)
      exact ⟨actor, (denotes_decision_iff (Nat.not_lt.mp isActor) present _).mpr denotes⟩

/-- Following a reference ends, whatever the path has selected. -/
theorem resolveFuel_ok (valid : DecisionsValid source image.choices) (context : Context)
    (fuel : Nat) (reference : Nat) (bounded : Bounded image.choices reference)
    (enough : EnoughFuel fuel reference) :
    ∃ answer, image.resolveFuel context fuel reference = .ok answer := by
  induction fuel generalizing reference with
  | zero => cases enough
  | succ fuel hyp =>
    by_cases isActor : reference < ActorRef.nodeBase
    · exact ⟨some (UInt8.ofNat reference), by simp [ActorImage.resolveFuel, isActor]⟩
    · obtain ⟨choice, present, shape⟩ := bounded.decision isActor
      have inside := (List.getElem?_eq_some_iff.mp present).1
      have child : ∀ arm, ∃ answer,
          image.resolveFuel context fuel (choice.child arm) = .ok answer := by
        intro arm
        have backward := valid.backward _ choice present arm
        refine hyp _ ?_ ?_
        · unfold Bounded
          omega
        · rw [shape] at enough
          exact enough.child backward
      obtain ⟨left, isLeft⟩ := child .left
      obtain ⟨right, isRight⟩ := child .right
      simp only [ActorChoice.child] at isLeft isRight
      simp only [ActorImage.resolveFuel, isActor, if_false, present]
      cases context.get choice.scope with
      | some arm => exact child arm
      | none =>
        cases left with
        | none => exact ⟨none, by simp [isLeft]⟩
        | some left =>
          cases right with
          | none => exact ⟨none, by simp [isLeft, isRight]⟩
          | some right =>
            simp only [isLeft, isRight, Run.bind_ok]
            by_cases same : left = right
            · exact ⟨some left, by simp [same]⟩
            · exact ⟨none, by simp [same]⟩

theorem enoughFuel_length (bounded : Bounded choices reference) :
    EnoughFuel (choices.length + 1) reference := by
  unfold Bounded at bounded
  unfold EnoughFuel
  omega

theorem resolve_ok (valid : DecisionsValid source image.choices) (context : Context)
    (bounded : Bounded image.choices reference) :
    ∃ answer, image.resolve reference context = .ok answer :=
  resolveFuel_ok valid context _ reference bounded (enoughFuel_length bounded)

/-- A path that decides every route resolves a reference to the actor that it denotes. -/
theorem resolveFuel_of_denotes (valid : DecisionsValid source image.choices)
    (complete : ∀ scope ∈ source.routes 0, context.get scope = some (env scope))
    (denotes : Denotes image.choices env reference actor) (fuel : Nat)
    (enough : EnoughFuel fuel reference) :
    image.resolveFuel context fuel reference = .ok (some actor) := by
  induction denotes generalizing fuel with
  | actor actor =>
    cases fuel with
    | zero => cases enough
    | succ fuel => simp [ActorImage.resolveFuel, actor_lt, ofNat_actor]
  | decision present child hyp =>
    rename_i index choice actor
    cases fuel with
    | zero => cases enough
    | succ fuel =>
      have decided := complete _ (valid.scopes index choice present)
      have rest := hyp fuel
        (enough.child (valid.backward index choice present (env choice.scope)))
      have notActor : ¬ index + ActorRef.nodeBase < ActorRef.nodeBase := by omega
      simp only [ActorImage.resolveFuel, notActor, if_false, Nat.add_sub_cancel, present, decided]
      exact rest

end Resolve

/-! ### Emitting decisions -/

/-- A step of the compiler only adds decisions. -/
structure Extends (source : Source) (before after : ActorImage) : Prop where
  choices : before.choices <+: after.choices
  events : after.events = before.events
  valid : DecisionsValid source after.choices

theorem Extends.refl (valid : DecisionsValid source image.choices) : Extends source image image :=
  ⟨prefix_rfl, rfl, valid⟩

theorem Extends.trans {first second third : ActorImage} (before : Extends source first second)
    (after : Extends source second third) : Extends source first third :=
  ⟨before.choices.trans after.choices, after.events.trans before.events, after.valid⟩

theorem node_eq_some (isNode : ActorRef.node index = some reference) :
    reference = index + ActorRef.nodeBase := by
  unfold ActorRef.node at isNode
  split at isNode
  · exact (Option.some.inj isNode).symm
  · cases isNode

theorem DecisionsValid.append (valid : DecisionsValid source choices)
    (bounded : ∀ arm, Bounded choices (choice.child arm)) (ne : choice.left ≠ choice.right)
    (mem : choice.scope ∈ source.routes 0) : DecisionsValid source (choices ++ [choice]) := by
  have cases_ : ∀ (index : Nat) (other : ActorChoice), (choices ++ [choice])[index]? = some other →
      choices[index]? = some other ∨ (index = choices.length ∧ other = choice) := by
    intro index other present
    rcases Nat.lt_or_ge index choices.length with inside | outside
    · rw [getElem?_append_left inside] at present
      exact .inl present
    · rw [getElem?_append_right outside] at present
      obtain ⟨last, isLast⟩ := List.getElem?_eq_some_iff.mp present
      rw [length_singleton] at last
      refine .inr ⟨by omega, ?_⟩
      rw [← isLast, getElem_singleton]
  refine ⟨?_, ?_, ?_⟩
  · intro index other present arm
    rcases cases_ index other present with old | ⟨rfl, rfl⟩
    · exact valid.backward index other old arm
    · exact bounded arm
  · intro index other present
    rcases cases_ index other present with old | ⟨_, rfl⟩
    · exact valid.reduced index other old
    · exact ne
  · intro index other present
    rcases cases_ index other present with old | ⟨_, rfl⟩
    · exact valid.scopes index other old
    · exact mem

/-- What an emitted reference stands for, which routes it may read and where it may end. -/
structure Emitted (source : Source) (before after : ActorImage) (reference : Nat)
    (holder : Assignment → UInt8 → Prop) (readable : Scope → Prop) (held : UInt8 → Prop) :
    Prop where
  grown : Extends source before after
  bounded : Bounded after.choices reference
  denotes : ∀ assignment actor, holder assignment actor →
    Denotes after.choices assignment reference actor
  reads : ∀ scope, Reads after.choices reference scope → readable scope
  leaves : ∀ actor, Leaf after.choices reference actor → held actor

/-- A decision denotes what its children denote. -/
theorem choice_emitted {decisionCapacity : Nat} {after : ActorImage} {left right : Nat}
    (valid : DecisionsValid source image.choices) (mem : scope ∈ source.routes 0)
    (leftBounded : Bounded image.choices left) (rightBounded : Bounded image.choices right)
    (isOk : image.choice decisionCapacity scope left right = .ok (reference, after)) :
    Emitted source image after reference (fun env actor =>
      Denotes image.choices env (ActorChoice.child ⟨scope, left, right⟩ (env scope)) actor)
      (fun read => read = scope ∨ Reads image.choices left read ∨ Reads image.choices right read)
      (fun actor => Leaf image.choices left actor ∨ Leaf image.choices right actor) ∧
      (left = right → reference = left) := by
  unfold ActorImage.choice at isOk
  split at isOk
  · rename_i same
    obtain ⟨rfl, rfl⟩ := Prod.mk.inj (Except.ok.inj isOk)
    refine ⟨⟨Extends.refl valid, leftBounded, fun env actor denotes => ?_,
      fun read reads => .inr (.inl reads), fun actor leaf => .inl leaf⟩, fun _ => rfl⟩
    have child : ActorChoice.child ⟨scope, left, right⟩ (env scope) = left := by
      rw [← same]
      cases env scope <;> rfl
    rw [child] at denotes
    exact denotes
  · rename_i ne
    refine ⟨?_, fun same => absurd same ne⟩
    split at isOk
    · rename_i index found
      split at isOk
      · rename_i node isNode
        cases isOk
        obtain ⟨inside, isChoice, _⟩ := findIdx?_eq_some_iff_getElem.mp found
        have present : image.choices[index]? = some ⟨scope, left, right⟩ := by
          rw [getElem?_eq_getElem inside]
          exact congrArg some (by simpa using isChoice)
        rw [node_eq_some isNode]
        exact ⟨Extends.refl valid, Nat.add_lt_add_right inside _,
          fun env actor denotes => .decision present denotes,
          fun read reads => reads_decision present reads,
          fun actor leaf => leaf_decision present leaf⟩
      · cases isOk
    · split at isOk
      · cases isOk
      · split at isOk
        · rename_i node isNode
          cases isOk
          rw [node_eq_some isNode]
          have bounded : ∀ arm, Bounded image.choices
              (ActorChoice.child ⟨scope, left, right⟩ arm) := by
            rintro (_ | _)
            · exact leftBounded
            · exact rightBounded
          have present : (image.choices ++ [⟨scope, left, right⟩])[image.choices.length]? =
              some ⟨scope, left, right⟩ := by simp
          refine ⟨⟨prefix_append _ _, rfl, valid.append bounded ne mem⟩,
            ?_, ?_, ?_, ?_⟩
          · simp [Bounded]
          · intro env actor denotes
            exact .decision present (denotes.mono (prefix_append _ _))
          · intro read reads
            refine (reads_decision present reads).imp_right fun children => ?_
            exact children.imp
              (fun inLeft => inLeft.of_prefix (prefix_append _ _) valid leftBounded)
              fun inRight => inRight.of_prefix (prefix_append _ _) valid rightBounded
          · intro actor leaf
            exact (leaf_decision present leaf).imp
              (fun inLeft => inLeft.of_prefix (prefix_append _ _) valid leftBounded)
              fun inRight => inRight.of_prefix (prefix_append _ _) valid rightBounded
        · cases isOk

/-! ### Lowering an endpoint -/

section Lower

variable {source : Source} {scratch : Scratch} {decisionCapacity : Nat}

/-- The holder of a place, on the assignments of a path. -/
def HolderOn (source : Source) (initial : Holders) (place : At) (context : Context)
    (assignment : Assignment) (actor : UInt8) : Prop :=
  context.Agrees assignment ∧
    source.holdersAt assignment initial place.cut place.key = actor

/-- An actor that holds the place on some assignment of a path. -/
def HeldOn (source : Source) (initial : Holders) (place : At) (context : Context)
    (actor : UInt8) : Prop :=
  ∃ assignment, HolderOn source initial place context assignment actor

/-- The routes that a lowered endpoint may read: they end in front of it, and the path has not
left them behind in an arm that is not taken. -/
def Readable (source : Source) (place : At) (context : Context) (read : Scope) : Prop :=
  read.stop ≤ place.cut ∧ context.Reaches source 0 read

/-- An answer that is an atom is lowered to its actor. -/
theorem lower_atom (isModel : scratch.Models source initial) {place : At} {atom : Atom}
    (answers : (scratch.query source).Answers place context (.atom atom))
    (closes : context.Closes source 0 place.cut) (imageValid : DecisionsValid source image.choices)
    (isActor : atom.denote initial = actor) :
    Emitted source image image (ActorRef.actor actor) (HolderOn source initial place context)
        (Readable source place context) (HeldOn source initial place context) ∧
      ∀ held, (∀ env, context.Agrees env →
        source.holdersAt env initial place.cut place.key = held) → held = actor := by
  have holder : ∀ env, context.Agrees env →
      source.holdersAt env initial place.cut place.key = actor := by
    intro env agrees
    rw [← isActor]
    exact (answers.2 closes initial isModel env agrees).symm
  refine ⟨⟨Extends.refl imageValid, bounded_actor _ actor, ?_,
    fun _ reads => absurd reads not_reads_actor, ?_⟩, ?_⟩
  · rintro env held ⟨agrees, rfl⟩
    rw [holder env agrees]
    exact .actor actor
  · intro held leaf
    rw [leaf_actor leaf]
    exact ⟨_, context.agrees_completed, holder _ context.agrees_completed⟩
  · intro held constant
    rw [← constant _ context.agrees_completed, holder _ context.agrees_completed]

/-- A lowered endpoint denotes its holder on every assignment of the path and ends only at actors
that hold it on one of them; a holder that does not depend on the assignment is lowered to an
actor. -/
theorem lowerActorFuel_emitted (valid : scratch.Valid source)
    (isModel : scratch.Models source initial) (place : At) (fuel : Nat)
    (closes : context.Closes source 0 place.cut) {image after : ActorImage}
    (imageValid : DecisionsValid source image.choices)
    (isOk : ActorImage.lowerActorFuel decisionCapacity source scratch place fuel image context =
      .ok (reference, after)) :
    Emitted source image after reference (HolderOn source initial place context)
        (Readable source place context) (HeldOn source initial place context) ∧
      ∀ held, (∀ env, context.Agrees env →
        source.holdersAt env initial place.cut place.key = held) →
          reference = ActorRef.actor held := by
  induction fuel generalizing context image after reference with
  | zero => cases isOk
  | succ fuel hyp =>
    obtain ⟨evaluation, isEvaluation, answers⟩ := Query.owner_answers valid.wellFormed place context
    simp only [ActorImage.lowerActorFuel, isEvaluation, Run.checked_ok, Run.bind_ok] at isOk
    cases evaluation with
    | atom atom =>
      cases atom with
      | actor actor =>
        cases isOk
        have lowered := lower_atom isModel answers closes imageValid rfl
        exact ⟨lowered.1, fun held constant => by rw [lowered.2 held constant]; rfl⟩
      | initial key =>
        obtain ⟨index, symbol, isIndex, isSymbol, kind⟩ :=
          Query.symbolIndex_of_isDelegated answers.1
        have found : symbolIndex scratch.symbols key = some index := isIndex
        obtain ⟨actor, isActor, inModels⟩ := valid.resolve_ok ⟨symbol, isSymbol, kind⟩
        simp only [found, isActor, Run.checked_ok, Run.bind_ok] at isOk
        cases actor with
        | none => cases isOk
        | some actor =>
          cases isOk
          have held := inModels initial isModel actor rfl
          rw [holderAt_of_symbolIndex found] at held
          have lowered := lower_atom isModel answers closes imageValid (Option.some.inj held)
          exact ⟨lowered.1, fun held constant => by rw [lowered.2 held constant]⟩
    | choice scope =>
      obtain ⟨mem, isOpen, ended, reaches⟩ := answers
      obtain ⟨⟨left, afterLeft⟩, isLeft, isOk⟩ := Run.of_bind isOk
      obtain ⟨⟨right, afterRight⟩, isRight, isOk⟩ := Run.of_bind isOk
      obtain ⟨leftEmitted, leftConstant⟩ :=
        hyp (closes.select _) imageValid isLeft
      obtain ⟨rightEmitted, rightConstant⟩ :=
        hyp (closes.select _) leftEmitted.grown.valid isRight
      have grown := leftEmitted.grown.trans rightEmitted.grown
      obtain ⟨emitted, collapsed⟩ := choice_emitted grown.valid mem
        (leftEmitted.bounded.mono rightEmitted.grown.choices) rightEmitted.bounded isOk
      refine ⟨⟨grown.trans emitted.grown, emitted.bounded, ?_, ?_, ?_⟩, ?_⟩
      · rintro env actor ⟨agrees, isHolder⟩
        refine emitted.denotes env actor ?_
        cases chosen : env scope with
        | left =>
          exact (leftEmitted.denotes env actor ⟨agrees.select chosen, isHolder⟩).mono
            rightEmitted.grown.choices
        | right => exact rightEmitted.denotes env actor ⟨agrees.select chosen, isHolder⟩
      · intro read reads
        rcases emitted.reads read reads with rfl | inLeft | inRight
        · exact ⟨ended, reaches⟩
        · obtain ⟨stops, reachesRead⟩ := leftEmitted.reads read
            (inLeft.of_prefix rightEmitted.grown.choices leftEmitted.grown.valid
              leftEmitted.bounded)
          exact ⟨stops, reachesRead.of_select isOpen⟩
        · obtain ⟨stops, reachesRead⟩ := rightEmitted.reads read inRight
          exact ⟨stops, reachesRead.of_select isOpen⟩
      · intro actor leaf
        -- The route is open on the path, so each arm has assignments of the path.
        have onPath : ∀ arm, HeldOn source initial place (context.select ⟨scope, arm⟩) actor →
            HeldOn source initial place context actor := by
          rintro arm ⟨env, agrees, isHolder⟩
          exact ⟨env, ((Context.agrees_select_iff isOpen _ _).mp agrees).1, isHolder⟩
        rcases emitted.leaves actor leaf with inLeft | inRight
        · exact onPath .left (leftEmitted.leaves actor (inLeft.of_prefix
            rightEmitted.grown.choices leftEmitted.grown.valid leftEmitted.bounded))
        · exact onPath .right (rightEmitted.leaves actor inRight)
      · intro held constant
        have onArm : ∀ arm env, (context.select ⟨scope, arm⟩).Agrees env →
            source.holdersAt env initial place.cut place.key = held :=
          fun arm env agrees =>
            constant env ((Context.agrees_select_iff isOpen _ _).mp agrees).1
        have leftActor := leftConstant held (onArm .left)
        have rightActor := rightConstant held (onArm .right)
        rw [collapsed (leftActor.trans rightActor.symm), leftActor]

end Lower

/-! ### Emitting the events of a source -/

/-- A reference stands for the holder of an endpoint at a position, on the assignments of a path. -/
structure ReferenceLowered (root : Source) (initial : Holders) (choices : List ActorChoice)
    (path : Context) (place : At) (reference : Nat) : Prop where
  bounded : Bounded choices reference
  denotes : ∀ assignment, path.Agrees assignment →
    Denotes choices assignment reference (root.holdersAt assignment initial place.cut place.key)
  constant : ∀ held, (∀ assignment, path.Agrees assignment →
    root.holdersAt assignment initial place.cut place.key = held) → reference = ActorRef.actor held
  reads : ∀ scope, Reads choices reference scope → Readable root place path scope
  leaves : ∀ actor, Leaf choices reference actor → HeldOn root initial place path actor

theorem ReferenceLowered.mono {root : Source} {path : Context} {place : At}
    (lowered : ReferenceLowered root initial choices path place reference)
    (extends_ : choices <+: more) (valid : DecisionsValid root choices) :
    ReferenceLowered root initial more path place reference where
  bounded := lowered.bounded.mono extends_
  denotes := fun env agrees => (lowered.denotes env agrees).mono extends_
  constant := lowered.constant
  reads := fun scope reads => lowered.reads scope (reads.of_prefix extends_ valid lowered.bounded)
  leaves := fun actor leaf => lowered.leaves actor (leaf.of_prefix extends_ valid lowered.bounded)

/-- The image has the references of the event at a position, on the path of the event. -/
structure EventLowered (root : Source) (initial : Holders) (image : ActorImage) (path : Context)
    (position : Nat) (message : Message) (pair : ActorPair) : Prop where
  located : Located root path (.send message) position
  present : image.events[position]? = some pair
  sender : ReferenceLowered root initial image.choices path ⟨message.fromKey, position⟩ pair.sender
  receiver : ReferenceLowered root initial image.choices path ⟨message.toKey, position⟩
    pair.receiver

/-- The image has the references of all events of a subtree. -/
def SourceLowered (root : Source) (initial : Holders) (image : ActorImage) (context : Context)
    (source : Source) (start : Nat) : Prop :=
  ∀ position, start ≤ position → position < start + source.eventCount →
    ∃ path message pair, EventLowered root initial image path position message pair ∧
      source.messageAt (position - start) = some message ∧
      ∀ assignment, context.Agrees assignment →
        position ∈ source.positions start assignment → path.Agrees assignment

/-- What emitting a subtree leaves alone, and what it adds. -/
structure EmitSpec (root : Source) (initial : Holders) (context : Context) (source : Source)
    (start : Nat) (before after : ActorImage) : Prop where
  choices : before.choices <+: after.choices
  valid : DecisionsValid root after.choices
  length : after.events.length = before.events.length
  other : ∀ position, position < start ∨ start + source.eventCount ≤ position →
    after.events[position]? = before.events[position]?
  lowered : SourceLowered root initial after context source start

variable {pair : ActorPair}

theorem EventLowered.mono {root : Source} {before after : ActorImage} {path : Context}
    {position : Nat} (lowered : EventLowered root initial before path position message pair)
    (extends_ : before.choices <+: after.choices) (valid : DecisionsValid root before.choices)
    (kept : after.events[position]? = before.events[position]?) :
    EventLowered root initial after path position message pair where
  located := lowered.located
  present := kept.trans lowered.present
  sender := lowered.sender.mono extends_ valid
  receiver := lowered.receiver.mono extends_ valid

section Emit

variable {root : Source} {scratch : Scratch} {decisionCapacity : Nat} {initial : Holders}
  {context : Context} {start : Nat} {image after : ActorImage}

theorem emit_send (valid : scratch.Valid root) (isModel : scratch.Models root initial)
    (located : Located root context (.send message) start)
    (imageValid : DecisionsValid root image.choices)
    (isOk : image.emit decisionCapacity root scratch (.send message) start context = .ok after) :
    EmitSpec root initial context (.send message) start image after := by
  unfold ActorImage.emit at isOk
  split at isOk
  · cases isOk
  · rename_i inside
    obtain ⟨⟨sender, afterSender⟩, isSender, isOk⟩ := Run.of_bind isOk
    obtain ⟨⟨receiver, afterReceiver⟩, isReceiver, isOk⟩ := Run.of_bind isOk
    cases isOk
    obtain ⟨senderEmitted, senderConstant⟩ := lowerActorFuel_emitted valid isModel
      ⟨message.fromKey, start⟩ _ located.closes_start imageValid isSender
    obtain ⟨receiverEmitted, receiverConstant⟩ := lowerActorFuel_emitted valid isModel
      ⟨message.toKey, start⟩ _ located.closes_start senderEmitted.grown.valid isReceiver
    have grown := senderEmitted.grown.trans receiverEmitted.grown
    have isInside : start < afterReceiver.events.length := by
      rw [grown.events]
      omega
    refine ⟨grown.choices, grown.valid, ?_, ?_, ?_⟩
    · rw [length_set, grown.events]
    · intro position outside
      have ne : start ≠ position := by
        simp only [Source.eventCount] at outside
        omega
      rw [getElem?_set_ne ne, grown.events]
    · intro position low high
      simp only [Source.eventCount] at high
      obtain rfl : start = position := by omega
      refine ⟨context, message, ⟨sender, receiver⟩, ⟨located, ?_, ?_, ?_⟩, ?_,
        fun _ agrees _ => agrees⟩
      · exact getElem?_set_self isInside
      · exact ⟨senderEmitted.bounded.mono receiverEmitted.grown.choices,
          fun env agrees => (senderEmitted.denotes env _ ⟨agrees, rfl⟩).mono
            receiverEmitted.grown.choices, senderConstant,
          fun scope reads => senderEmitted.reads scope (reads.of_prefix
            receiverEmitted.grown.choices senderEmitted.grown.valid senderEmitted.bounded),
          fun actor leaf => senderEmitted.leaves actor (leaf.of_prefix
            receiverEmitted.grown.choices senderEmitted.grown.valid senderEmitted.bounded)⟩
      · exact ⟨receiverEmitted.bounded,
          fun env agrees => receiverEmitted.denotes env _ ⟨agrees, rfl⟩,
          receiverConstant, receiverEmitted.reads, receiverEmitted.leaves⟩
      · simp [Source.messageAt]

/-- The events of two neighbours, emitted one after the other. -/
theorem EmitSpec.append {left right both : Source} {context leftPath rightPath : Context}
    {image middle after : ActorImage} (count : both.eventCount = left.eventCount + right.eventCount)
    (messageAt : ∀ event, both.messageAt event = if event < left.eventCount
      then left.messageAt event else right.messageAt (event - left.eventCount))
    (leftPresent : ∀ env position, context.Agrees env → position < start + left.eventCount →
      position ∈ both.positions start env →
      leftPath.Agrees env ∧ position ∈ left.positions start env)
    (rightPresent : ∀ env position, context.Agrees env → start + left.eventCount ≤ position →
      position ∈ both.positions start env →
      rightPath.Agrees env ∧ position ∈ right.positions (start + left.eventCount) env)
    (first : EmitSpec root initial leftPath left start image middle)
    (second : EmitSpec root initial rightPath right (start + left.eventCount) middle after) :
    EmitSpec root initial context both start image after := by
  refine ⟨first.choices.trans second.choices, second.valid,
    second.length.trans first.length, ?_, ?_⟩
  · intro position outside
    rw [count] at outside
    rw [second.other position (by omega), first.other position (by omega)]
  · intro position low high
    rw [count] at high
    rcases Nat.lt_or_ge position (start + left.eventCount) with inLeft | inRight
    · obtain ⟨path, message, pair, lowered, isMessage, reaches⟩ :=
        first.lowered position low inLeft
      refine ⟨path, message, pair,
        lowered.mono second.choices first.valid (second.other position (.inl inLeft)), ?_, ?_⟩
      · rw [messageAt, if_pos (by omega), isMessage]
      · intro env agrees isPresent
        obtain ⟨onLeft, inLeftArm⟩ := leftPresent env position agrees inLeft isPresent
        exact reaches env onLeft inLeftArm
    · obtain ⟨path, message, pair, lowered, isMessage, reaches⟩ :=
        second.lowered position inRight (by omega)
      refine ⟨path, message, pair, lowered, ?_, ?_⟩
      · rw [messageAt, if_neg (by omega), Nat.sub_sub, isMessage]
      · intro env agrees isPresent
        obtain ⟨onRight, inRightArm⟩ := rightPresent env position agrees inRight isPresent
        exact reaches env onRight inRightArm

theorem emit_spec (valid : scratch.Valid root) (isModel : scratch.Models root initial)
    (source : Source) (located : Located root context source start)
    (imageValid : DecisionsValid root image.choices)
    (isOk : image.emit decisionCapacity root scratch source start context = .ok after) :
    EmitSpec root initial context source start image after := by
  induction source generalizing context start image after with
  | send message => exact emit_send valid isModel located imageValid isOk
  | seq left right hypLeft hypRight =>
    obtain ⟨middle, isMiddle, isOk⟩ := Run.of_bind isOk
    have first := hypLeft located.seq_left imageValid isMiddle
    have second := hypRight located.seq_right first.valid isOk
    exact EmitSpec.append rfl (fun _ => rfl)
      (fun _ _ agrees inside mem => ⟨agrees, Source.mem_positions_seq_left mem inside⟩)
      (fun _ _ agrees inside mem => ⟨agrees, Source.mem_positions_seq_right mem inside⟩)
      first second
  | par left right hypLeft hypRight =>
    obtain ⟨middle, isMiddle, isOk⟩ := Run.of_bind isOk
    have first := hypLeft located.par_left imageValid isMiddle
    have second := hypRight located.par_right first.valid isOk
    exact EmitSpec.append rfl (fun _ => rfl)
      (fun _ _ agrees inside mem => ⟨agrees, Source.mem_positions_seq_left mem inside⟩)
      (fun _ _ agrees inside mem => ⟨agrees, Source.mem_positions_seq_right mem inside⟩)
      first second
  | route left right resolver hypLeft hypRight =>
    obtain ⟨middle, isMiddle, isOk⟩ := Run.of_bind isOk
    have first := hypLeft located.route_left imageValid isMiddle
    have second := hypRight located.route_right first.valid isOk
    refine EmitSpec.append rfl (fun _ => rfl) ?_ ?_ first second
    · intro env position agrees inside mem
      obtain ⟨chosen, inArm⟩ := Source.mem_positions_route_left mem inside
      exact ⟨agrees.select chosen, inArm⟩
    · intro env position agrees inside mem
      obtain ⟨chosen, inArm⟩ := Source.mem_positions_route_right mem inside
      exact ⟨agrees.select chosen, inArm⟩
  | roll body hypBody =>
    have spec := hypBody located.roll_body imageValid isOk
    exact ⟨spec.choices, spec.valid, spec.length, spec.other, spec.lowered⟩

end Emit

/-! ### The compiled image -/

/-- A compiled image: its source is accepted, and it has the references of every event. -/
structure Compiled (source : Source) (scratch : Scratch) (image : ActorImage) : Prop where
  accepted : Accepted source scratch
  valid : DecisionsValid source image.choices
  eventLen : image.eventLen = source.eventCount
  lowered : ∀ initial, source.Conforms initial →
    SourceLowered source initial image (Context.new []) source 0

theorem compiled_of_ok {symbolCapacity eventCapacity decisionCapacity : Nat}
    (isOk : compileActorImageInto symbolCapacity eventCapacity decisionCapacity source =
      .ok (scratch, image)) : Compiled source scratch image := by
  obtain ⟨validated, isValidated, isOk⟩ := Run.of_bind isOk
  obtain ⟨emitted, isEmitted, isOk⟩ := Run.of_bind isOk
  cases isOk
  have accepted := accepted_of_validate isValidated
  have empty : DecisionsValid source (ActorImage.new eventCapacity).choices :=
    ⟨by rintro _ _ ⟨⟩, by rintro _ _ ⟨⟩, by rintro _ _ ⟨⟩⟩
  have spec : ∀ initial, source.Conforms initial → EmitSpec source initial (Context.new []) source 0
      (ActorImage.new eventCapacity) emitted := fun initial conforms =>
    emit_spec accepted.valid ((accepted.models initial).mpr conforms) source
      (Located.of_root source) empty isEmitted
  obtain ⟨initial, isModel, _⟩ :=
    (Scratch.rooted_iff_existsUnique accepted.valid).mp accepted.rooted
  refine ⟨accepted, (spec initial ((accepted.models initial).mp isModel)).valid, ?_, ?_⟩
  · rw [← source.length_messages, ← accepted.events]
  · intro other conforms position low high
    obtain ⟨path, message, pair, lowered, rest⟩ := (spec other conforms).lowered position low high
    exact ⟨path, message, pair, ⟨lowered.located, lowered.present, lowered.sender,
      lowered.receiver⟩, rest⟩

/-- The selections decide every route of the source as the assignment does. -/
def Source.Complete (source : Source) (selections : List Selection) (assignment : Assignment) :
    Prop :=
  ∀ scope ∈ source.routes 0, (Context.new selections).get scope = some (assignment scope)

/-- The references of a present event denote the holders in front of it. -/
theorem Compiled.denotes (compiled : Compiled source scratch image)
    (conforms : source.Conforms initial)
    (isPresent : (event, message) ∈ source.presentEvents 0 env) :
    ∃ pair, image.events[event]? = some pair ∧ Bounded image.choices pair.sender ∧
      Bounded image.choices pair.receiver ∧
      Denotes image.choices env pair.sender (source.holdersAt env initial event message.fromKey) ∧
      Denotes image.choices env pair.receiver
        (source.holdersAt env initial event message.toKey) := by
  have bounds := Source.presentEvents_bounds isPresent
  obtain ⟨path, found, pair, lowered, isFound, reaches⟩ :=
    compiled.lowered initial conforms event bounds.1 bounds.2
  have isMessage := Source.messageAt_of_mem_presentEvents isPresent
  rw [isFound] at isMessage
  cases isMessage
  have agrees := reaches env (by rintro scope arm ⟨⟩) (mem_map_of_mem isPresent)
  exact ⟨pair, lowered.present, lowered.sender.bounded, lowered.receiver.bounded,
    lowered.sender.denotes env agrees, lowered.receiver.denotes env agrees⟩

variable {selections : List Selection}

/-- On a complete path the image gives an event the actors that its references denote. -/
theorem actorsAt_of_denotes (valid : DecisionsValid source image.choices)
    (complete : source.Complete selections env) (inside : event < image.eventLen)
    (isPair : image.events[event]? = some pair) (senderBounded : Bounded image.choices pair.sender)
    (receiverBounded : Bounded image.choices pair.receiver) {sender receiver : UInt8}
    (isSender : Denotes image.choices env pair.sender sender)
    (isReceiver : Denotes image.choices env pair.receiver receiver) :
    image.actorsAt event selections = .ok (some (sender, receiver)) := by
  have senderResolves := resolveFuel_of_denotes valid complete isSender
    (image.choices.length + 1) (enoughFuel_length senderBounded)
  have receiverResolves := resolveFuel_of_denotes valid complete isReceiver
    (image.choices.length + 1) (enoughFuel_length receiverBounded)
  simp [ActorImage.actorsAt, Nat.not_le.mpr inside, isPair, ActorImage.resolve, senderResolves,
    receiverResolves]

/-- On a complete path the image gives a present event the holders of replay. -/
theorem Compiled.actorsAt_eq (compiled : Compiled source scratch image)
    (conforms : source.Conforms initial) (complete : source.Complete selections env)
    (isPresent : (event, message) ∈ source.presentEvents 0 env) :
    image.actorsAt event selections = .ok (some (source.holdersAt env initial event message.fromKey,
        source.holdersAt env initial event message.toKey)) := by
  obtain ⟨pair, isPair, senderBounded, receiverBounded, sender, receiver⟩ :=
    compiled.denotes conforms isPresent
  have bounds := Source.presentEvents_bounds isPresent
  exact actorsAt_of_denotes compiled.valid complete (by rw [compiled.eventLen]; omega) isPair
    senderBounded receiverBounded sender receiver

/-- An inspection of the image ends on every path. -/
theorem Compiled.actorsAt_ok (compiled : Compiled source scratch image) (event : Nat)
    (selections : List Selection) : ∃ answer, image.actorsAt event selections = .ok answer := by
  by_cases outside : image.eventLen ≤ event
  · exact ⟨none, by simp [ActorImage.actorsAt, outside]⟩
  · obtain ⟨initial, isModel, _⟩ :=
      (Scratch.rooted_iff_existsUnique compiled.accepted.valid).mp compiled.accepted.rooted
    have inside : event < source.eventCount := by
      rw [compiled.eventLen] at outside
      omega
    obtain ⟨path, message, pair, lowered, _⟩ := compiled.lowered initial
      ((compiled.accepted.models initial).mp isModel) event (Nat.zero_le _) (by omega)
    obtain ⟨sender, isSender⟩ := resolve_ok compiled.valid (Context.new selections)
      lowered.sender.bounded
    obtain ⟨receiver, isReceiver⟩ := resolve_ok compiled.valid (Context.new selections)
      lowered.receiver.bounded
    simp only [ActorImage.actorsAt, outside, if_false, lowered.present, isSender, Run.bind_ok]
    cases sender with
    | none => exact ⟨none, rfl⟩
    | some sender =>
      simp only [isReceiver, Run.bind_ok]
      cases receiver with
      | none => exact ⟨none, rfl⟩
      | some receiver => exact ⟨some (sender, receiver), rfl⟩

/-- An accepted source has one assignment of initial owners, the solved one, and on every complete
path the image gives each present event the holders that replaying the present events from it
finds. Decisions refer only to earlier decisions, and an inspection ends on every path. -/
theorem actorsAt_eq_replay (symbolCapacity eventCapacity decisionCapacity : Nat) (source : Source)
    (scratch : Scratch) (image : ActorImage)
    (isOk : compileActorImageInto symbolCapacity eventCapacity decisionCapacity source =
      .ok (scratch, image)) :
    (∃! initial, source.SolvesOwnership initial) ∧
    (∀ initial, source.SolvesOwnership initial →
      (∀ key, source.transfers key = true → ∃ index, symbolIndex scratch.symbols key = some index ∧
        scratch.resolve (.initial index) = .ok (some (initial key))) ∧
      ∀ assignment selections, source.Complete selections assignment → ∀ event message,
        (event, message) ∈ source.presentEvents 0 assignment → image.actorsAt event selections =
            .ok (some (source.holdersAt assignment initial event message.fromKey,
              source.holdersAt assignment initial event message.toKey))) ∧
    (∀ (index : Nat) (choice : ActorChoice), image.choices[index]? = some choice →
      choice.left < index + ActorRef.nodeBase ∧ choice.right < index + ActorRef.nodeBase) ∧
    ∀ event selections, ∃ answer, image.actorsAt event selections = .ok answer := by
  have compiled := compiled_of_ok isOk
  have unique := (Scratch.rooted_iff_existsUnique compiled.accepted.valid).mp
    compiled.accepted.rooted
  simp only [compiled.accepted.models] at unique
  obtain ⟨messages, separated, _⟩ := unique.exists.choose_spec
  refine ⟨((existsUnique_conforms_iff source).mp unique).2.2, ?_, ?_, compiled.actorsAt_ok⟩
  · intro initial solves
    have conforms : source.Conforms initial := ⟨messages, separated, solves⟩
    exact ⟨fun key transferred => compiled.accepted.resolve_eq conforms transferred,
      fun assignment selections complete event message isPresent =>
        compiled.actorsAt_eq conforms complete isPresent⟩
  · intro index choice present
    exact ⟨compiled.valid.backward index choice present .left,
      compiled.valid.backward index choice present .right⟩

/-- The scratch of this source: endpoint 5 starts with actor 0. -/
def branchScratch : Scratch where
  symbols := [⟨⟨0, 0⟩, .control⟩, ⟨⟨0, 1⟩, .control⟩, ⟨⟨0, 5⟩, .delegated⟩, ⟨⟨0, 2⟩, .control⟩,
    ⟨⟨0, 3⟩, .control⟩]
  initial := [⟨0, 0, none⟩, ⟨1, 0, none⟩, ⟨2, 0, some 0⟩, ⟨3, 0, none⟩, ⟨4, 0, none⟩]
  events := branchHandover.messages

/-- The image of this source: the last sender is a decision on the route. -/
def branchImage : ActorImage where
  events := [⟨0, 1⟩, ⟨0, 2⟩, ⟨256, 3⟩]
  choices := [⟨⟨0, 1, 2⟩, 1, 2⟩]
  eventLen := 3

theorem branchHandover_compiled :
    compileActorImageInto 5 3 1 branchHandover = .ok (branchScratch, branchImage) := by
  decide +kernel

theorem branchHandover_actors :
    (∃! initial, branchHandover.SolvesOwnership initial) ∧
      branchImage.actorsAt 2 [⟨⟨0, 1, 2⟩, .left⟩] = .ok (some (1, 3)) ∧
      branchImage.actorsAt 2 [⟨⟨0, 1, 2⟩, .right⟩] = .ok (some (2, 3)) := by
  refine ⟨?_, by decide +kernel, by decide +kernel⟩
  exact (actorsAt_eq_replay 5 3 1 branchHandover branchScratch branchImage
    branchHandover_compiled).1

end Hibana
