/-
This file models the check of the rolls of a lowered source,
`roll_reentry_endpoint_conflict` of `global/const_dsl/endpoint_selectors.rs`.

A role can start a roll again with an event that it may send first in the body,
and it can go on with any event behind the body that is not excluded by a choice.
When both have one label and one payload, the role cannot say which one it means.
An event of the body comes first for its sender when on some choice of the routes
no event in front of it involves the sender. In a source with delegation a sender
is a reference to its actor, else it is a role.
-/

import HibanaChoreography.Lowering.BranchGuards
import HibanaChoreography.Lowering.ParallelSelectors

namespace Hibana

open Outcome ScopeMarkers List

/-! ### The check -/

/-- The sender and the receiver of an event, as actors or as roles. -/
def eventParties (eff : EffList) (actors : Option (List ActorPair)) (event : Nat) :
    Run (Nat × Nat) :=
  match actors with
  | some pairs =>
    match pairs[event]? with
    | some pair => .ok (pair.sender, pair.receiver)
    | none => .error (.panic "index out of bounds")
  | none => do
    let atom ← eff.atomAt event
    return (atom.sender.toNat, atom.receiver.toNat)

/-- An earlier event of the owner that no branch separates from the candidate. -/
def isGuard (eff : EffList) (actors : Option (List ActorPair)) (paths : BranchPaths)
    (owner candidate prior : Nat) : Run Bool := do
  let (sender, receiver) ← eventParties eff actors prior
  if sender = owner ∨ receiver = owner then
    return (← paths.separation prior candidate).isNone
  else return false

/-- Look for a guard that precedes the candidate on every path; without one, the result says
whether there is any guard. -/
def scanGuards (eff : EffList) (actors : Option (List ActorPair)) (paths : BranchPaths)
    (owner candidate : Nat) : List Nat → Bool → Run (Option Bool)
  | [], conditional => .ok (some conditional)
  | prior :: priors, conditional => do
    if ← isGuard eff actors paths owner candidate prior then
      if ← paths.precedesOnEveryPath prior candidate then return none
      else scanGuards eff actors paths owner candidate priors true
    else scanGuards eff actors paths owner candidate priors conditional

def recordGuards (eff : EffList) (actors : Option (List ActorPair)) (paths : BranchPaths)
    (owner candidate : Nat) (arms : Nat → GuardedArms) (prior : Nat) :
    Run (Nat → GuardedArms) := do
  if ← isGuard eff actors paths owner candidate prior then paths.recordGuard arms prior
  else return arms

/-- The candidate comes first for its sender on some path through the body. -/
def outboundRollHead (eff : EffList) (actors : Option (List ActorPair)) (paths : BranchPaths)
    (start candidate : Nat) : Run Bool := do
  let (owner, _) ← eventParties eff actors candidate
  let priors := (List.range' start (candidate - start)).reverse
  match ← scanGuards eff actors paths owner candidate priors false with
  | none => return false
  | some false => return true
  | some true =>
    let arms ← priors.foldlM (recordGuards eff actors paths owner candidate)
      fun _ => ⟨false, false⟩
    return !(← paths.guardsEveryPath arms candidate)

def rollBodyRange (marker : ScopeMarker) : Option (Nat × Nat) :=
  if ¬ marker.event.isEnter ∨ marker.scopeId.kind ≠ .roll then none
  else if marker.segmentEnd ≤ marker.offset then none
  else some (marker.offset, marker.segmentEnd)

/-- An event behind the body that no route excludes from the head. -/
def continuationConflict (paths : BranchPaths) (bodyEnd head later : Nat) :
    Run (Option (Nat × Nat)) := do
  if bodyEnd ≤ later then
    if (← paths.separation head later) ≠ some .route then return some (head, later)
    else return none
  else return none

/-- A later event with the key of a head that no route excludes. -/
def laterConflict (paths : BranchPaths) (outbound sorted : Nat → Nat) (len bodyEnd head : Nat) :
    Run (Option (Nat × Nat)) := do
  let low ← lowerBound (fun middle => .ok (outbound (sorted middle) < outbound head)) len 0 len
  let equal := (List.range' low (len - low)).takeWhile fun position =>
    outbound (sorted position) = outbound head
  equal.findSomeM? fun position => continuationConflict paths bodyEnd head (sorted position)

def headConflict (eff : EffList) (actors : Option (List ActorPair)) (paths : BranchPaths)
    (outbound sorted : Nat → Nat) (bodyStart bodyEnd head : Nat) : Run (Option (Nat × Nat)) := do
  if ← outboundRollHead eff actors paths bodyStart head then
    laterConflict paths outbound sorted eff.len bodyEnd head
  else return none

def markerConflict (eff : EffList) (actors : Option (List ActorPair)) (paths : BranchPaths)
    (outbound sorted : Nat → Nat) (marker : ScopeMarker) : Run (Option (Nat × Nat)) :=
  if marker.event.isPrimaryEnter ∧ marker.scopeId.kind = .roll then
    match rollBodyRange marker with
    | none => .error .invariant
    | some (bodyStart, bodyEnd) =>
      (List.range' bodyStart (bodyEnd - bodyStart)).findSomeM?
        (headConflict eff actors paths outbound sorted bodyStart bodyEnd)
  else .ok none

def rollReentryEndpointConflict (eff : EffList) (actors : Option (List ActorPair)) :
    Run (Option (Nat × Nat)) :=
  if actors.any fun pairs => pairs.length ≠ eff.len then
    .error (.panic "assertion failed: actors.len() == eff_list.len()")
  else if eff.markers.all fun marker => marker.scopeId.kind ≠ .roll then .ok none
  else do
    let paths ← BranchPaths.new eff.capacity eff.markers
    let outbound ← outboundSelectors eff
    let sorted := sortedSelectorEvents outbound eff.len
    eff.markers.findSomeM? (markerConflict eff actors paths outbound sorted)

/-! ### Heads of a body -/

/-- The sender and the receiver of an event of the source, as actors or as roles. -/
def Source.parties (source : Source) (actors : Option (List ActorPair)) (event : Nat) :
    Option (Nat × Nat) :=
  match actors with
  | some pairs => pairs[event]?.map fun pair => (pair.sender, pair.receiver)
  | none => (source.messageAt event).map fun message =>
    (message.fromKey.role.toNat, message.toKey.role.toNat)

/-- An event involves the sender of another one. -/
def Source.InvolvesSender (source : Source) (actors : Option (List ActorPair))
    (event head : Nat) : Prop :=
  ∃ sender receiver headReceiver, source.parties actors event = some (sender, receiver) ∧
    ∃ owner, source.parties actors head = some (owner, headReceiver) ∧
      (sender = owner ∨ receiver = owner)

/-- On some choice of the routes of the body that keeps the head, no event of the body in front of
it involves its sender. -/
def Source.OutboundHead (source : Source) (actors : Option (List ActorPair)) (body : Source)
    (start head : Nat) : Prop :=
  ∃ assignment, head ∈ body.positions start assignment ∧
    ∀ event ∈ body.positions start assignment, source.before event head = true →
      ¬ source.InvolvesSender actors event head

/-- The events lie in opposite arms of one route. -/
def Source.OppositeArms (source : Source) (first second : Nat) : Prop :=
  ∃ route ∈ source.routes 0, (route.start ≤ first ∧ first < route.split) ∧
    route.split ≤ second ∧ second < route.stop

/-- A head of the body and an event behind the body agree in sender, label and payload, and no
route excludes the one from the other. -/
def Source.ReentryClash (source : Source) (actors : Option (List ActorPair)) (body : Source)
    (start : Nat) : Prop :=
  ∃ head later first second, (start ≤ head ∧ head < start + body.eventCount) ∧
    start + body.eventCount ≤ later ∧ source.messageAt head = some first ∧
    source.messageAt later = some second ∧ first.selector = second.selector ∧
    ¬ source.OppositeArms head later ∧ source.OutboundHead actors body start head

variable {body : Source} {reentry : ReentryMark} {node : ScopeNode} {guard : Nat → Prop}

namespace Source

variable {source : Source} {start first second : Nat}

theorem not_splits_of_outside (outside : first < start ∨ start + source.eventCount ≤ second) :
    ∀ branch ∈ source.branches start, ¬ branch.Splits first second := by
  intro branch mem splits
  have bounds := branches_bounds mem
  unfold Branch.Splits at splits
  omega

/-- Source order is the order of positions, except for events that a branch splits. -/
theorem before_iff (fromStart : start ≤ first) (ordered : first < second)
    (inside : second < start + source.eventCount) :
    source.before (first - start) (second - start) = true ↔
      ∀ branch ∈ source.branches start, ¬ branch.Splits first second := by
  induction source generalizing start with
  | send message =>
    rw [eventCount] at inside
    omega
  | seq left right hypLeft hypRight =>
    rw [eventCount] at inside
    rw [before, if_neg (by omega), branches, forall_mem_append]
    rcases Nat.lt_or_ge second (start + left.eventCount) with inLeft | fromSplit
    · rw [if_pos (by omega), hypLeft fromStart inLeft]
      exact (and_iff_left (not_splits_of_outside (.inl (by omega)))).symm
    · rcases Nat.lt_or_ge first (start + left.eventCount) with across | inRight
      · rw [if_neg (by omega), if_neg (by omega), decide_eq_true (by omega)]
        exact iff_of_true rfl ⟨not_splits_of_outside (.inr fromSplit),
          not_splits_of_outside (.inl across)⟩
      · rw [if_neg (by omega), if_pos (by omega), Nat.sub_sub, Nat.sub_sub,
          hypRight inRight (by omega)]
        exact (and_iff_right (not_splits_of_outside (.inr fromSplit))).symm
  | par left right hypLeft hypRight
  | route left right resolver hypLeft hypRight =>
    rw [eventCount] at inside
    rw [before, if_neg (by omega), branches, forall_mem_cons, forall_mem_append]
    rcases Nat.lt_or_ge second (start + left.eventCount) with inLeft | fromSplit
    · rw [if_pos (by omega), hypLeft fromStart inLeft]
      exact ((and_iff_right fun splits => Nat.not_lt.mpr splits.2.1 inLeft).trans
        (and_iff_left (not_splits_of_outside (.inl (by omega))))).symm
    · rcases Nat.lt_or_ge first (start + left.eventCount) with across | inRight
      · rw [if_neg (by omega), if_neg (by omega)]
        refine iff_of_false Bool.false_ne_true fun all => all.1 ⟨⟨fromStart, across⟩, fromSplit, ?_⟩
        show second < start + left.eventCount + right.eventCount
        omega
      · rw [if_neg (by omega), if_pos (by omega), Nat.sub_sub, Nat.sub_sub,
          hypRight inRight (by omega)]
        exact ((and_iff_right fun splits => Nat.not_lt.mpr inRight splits.1.2).trans
          (and_iff_right (not_splits_of_outside (.inr fromSplit)))).symm
  | roll body hypBody =>
    rw [before, if_neg (by omega)]
    exact hypBody fromStart inside

theorem mem_routes_iff {scope : Scope} :
    scope ∈ source.routes start ↔
      ∃ branch ∈ source.branches start, branch.kind = .route ∧ branch.scope = scope := by
  induction source generalizing start with
  | send message => exact iff_of_false not_mem_nil (by rintro ⟨_, ⟨⟩, _⟩)
  | seq left right hypLeft hypRight =>
    rw [routes, branches, mem_append]
    simp only [mem_append, or_and_right, exists_or]
    exact or_congr hypLeft hypRight
  | par left right hypLeft hypRight =>
    rw [routes, branches, mem_append]
    simp only [mem_cons, mem_append, or_and_right, exists_or, exists_eq_left]
    exact (or_congr hypLeft hypRight).trans (or_iff_right (by rintro ⟨⟨⟩, _⟩)).symm
  | route left right resolver hypLeft hypRight =>
    rw [routes, branches, mem_cons, mem_append]
    simp only [mem_cons, mem_append, or_and_right, exists_or, exists_eq_left, true_and]
    exact or_congr ⟨fun same => same ▸ rfl, fun same => same ▸ rfl⟩ (or_congr hypLeft hypRight)
  | roll body hypBody => exact hypBody

theorem oppositeArms_iff :
    source.OppositeArms first second ↔
      ∃ branch ∈ source.branches 0, branch.kind = .route ∧ branch.Splits first second := by
  constructor
  · rintro ⟨scope, mem, sides⟩
    obtain ⟨branch, isBranch, isRoute, rfl⟩ := mem_routes_iff.mp mem
    exact ⟨branch, isBranch, isRoute, sides⟩
  · rintro ⟨branch, isBranch, isRoute, sides⟩
    exact ⟨branch.scope, mem_routes_iff.mpr ⟨branch, isBranch, isRoute, rfl⟩, sides⟩

/-- Guards inside the body of a roll guard in the whole source exactly when they guard in the
body. -/
theorem guarded_iff_body {ordinal : Nat} {candidate : Nat}
    (isScope : node ∈ source.scopes start ordinal reentry) (isRoll : node.composite = .roll body)
    (guards : ∀ event, guard event → node.start ≤ event ∧ event < node.stop)
    (inside : node.start ≤ candidate ∧ candidate < node.stop) :
    source.Guarded start guard candidate ↔ body.Guarded node.start guard candidate := by
  have free : ∀ {part : Source} {first : Nat},
      (node.stop ≤ first ∨ first + part.eventCount ≤ node.start) →
      ¬ part.Guarded first guard candidate := by
    intro part first apart
    refine not_guarded_of_forall_not (fun event fromStart before isGuard => ?_) (by omega)
    have bounds := guards event isGuard
    omega
  induction source generalizing start ordinal reentry with
  | send message => cases isScope
  | seq left right hypLeft hypRight =>
    rw [guarded_seq]
    rcases mem_append.mp isScope with inLeft | inRight
    · exact (or_iff_left (free (.inl (scopes_inside inLeft).2))).trans (hypLeft inLeft)
    · exact (or_iff_right (free (.inr (scopes_inside inRight).1))).trans (hypRight inRight)
  | par left right hypLeft hypRight =>
    rw [guarded_par]
    rcases mem_cons.mp isScope with rfl | inArms
    · cases isRoll
    · rcases mem_append.mp inArms with inLeft | inRight
      · exact (or_iff_left (free (.inl (scopes_inside inLeft).2))).trans (hypLeft inLeft)
      · exact (or_iff_right (free (.inr (scopes_inside inRight).1))).trans (hypRight inRight)
  | route left right resolver hypLeft hypRight =>
    rcases mem_cons.mp isScope with rfl | inArms
    · cases isRoll
    · rcases mem_append.mp inArms with inLeft | inRight
      · have bounds := scopes_inside inLeft
        exact (guarded_route_of_left (by omega)).trans (hypLeft inLeft)
      · have bounds := scopes_inside inRight
        exact (guarded_route_of_right (by omega)).trans (hypRight inRight)
  | roll inner hypBody =>
    rcases mem_cons.mp isScope with rfl | inBody
    · obtain rfl := Composite.roll.inj isRoll
      exact guarded_roll
    · exact guarded_roll.trans (hypBody inBody)

end Source

variable {source : Source}

namespace Source

/-- Every event is present on some choice. -/
theorem exists_assignment_of_lt (source : Source) {event : Nat}
    (inside : event < source.eventCount) : ∃ env, event ∈ source.positions 0 env :=
  ⟨fun scope => scope.armAt event, mem_positions_iff.mpr
    ⟨⟨Nat.zero_le _, by omega⟩, fun _ _ _ _ => rfl⟩⟩

/-- An event of the body in front of a candidate that involves its sender. -/
def GuardOf (source : Source) (actors : Option (List ActorPair)) (start candidate event : Nat) :
    Prop :=
  (start ≤ event ∧ event < candidate) ∧ source.before event candidate = true ∧
    source.InvolvesSender actors event candidate

/-- A guard guards alone when the routes around it are around the candidate. -/
theorem guarded_of_shared_routes {candidate event : Nat} (inside : candidate < source.eventCount)
    (earlier : event < candidate) (isGuard : guard event)
    (together : ∀ branch ∈ source.branches 0,
      ¬ branch.Splits event candidate ∧ ¬ branch.Splits candidate event)
    (around : ∀ branch ∈ source.branches 0, branch.kind = .route → branch.Holds event →
      branch.Holds candidate) : source.Guarded 0 guard candidate := by
  intro env keeps
  have present := mem_positions_iff.mp (keeps (Nat.zero_le _) (by omega))
  refine ⟨event, mem_positions_iff.mpr ⟨by omega, ?_⟩, isGuard⟩
  intro branch mem isRoute holds
  have candidateHeld := around branch mem isRoute holds
  rw [present.2 branch mem isRoute candidateHeld]
  have apart := together branch mem
  simp only [Branch.Splits, Branch.Holds, Ancestry.Holds] at apart holds candidateHeld
  unfold Scope.armAt Branch.scope
  dsimp only
  by_cases inLeft : event < branch.split
  · rw [if_pos inLeft, if_pos (by omega)]
  · rw [if_neg inLeft, if_neg (by omega)]

/-- A candidate of the body is a head exactly when it is not guarded. -/
theorem outboundHead_iff {source body : Source} {actors : Option (List ActorPair)} {ordinal : Nat}
    {head : Nat} (isScope : node ∈ source.scopes 0 ordinal reentry)
    (isRoll : node.composite = .roll body) (inside : node.start ≤ head ∧ head < node.stop) :
    source.OutboundHead actors body node.start head ↔
      ¬ source.Guarded 0 (source.GuardOf actors node.start head) head := by
  have isStop : node.stop = node.start + body.eventCount := by
    rw [ScopeNode.stop, isRoll]
    rfl
  rw [guarded_iff_body isScope isRoll (fun event guards => by
    have bounds := guards.1
    omega) inside]
  unfold OutboundHead Guarded
  push Not
  refine exists_congr fun env => and_congr ?_ (forall₂_congr fun event mem => ?_)
  · exact ⟨fun present _ _ => present, fun keeps => keeps inside.1 (isStop ▸ inside.2)⟩
  · constructor
    · rintro free ⟨_, before, involves⟩
      exact free before involves
    · intro free before involves
      exact free ⟨⟨(positions_bounds mem).1, lt_of_before before⟩, before, involves⟩

end Source

/-! ### The head test -/

section

variable {eff : EffList} {source : Source} (lowered : eff.Lowered source)
  {actors : Option (List ActorPair)}
  (isLength : ∀ pairs, actors = some pairs → pairs.length = eff.len)

include lowered isLength

/-- The parties of an event of a lowered source. -/
theorem eventParties_eq {event : Nat} (inside : event < source.eventCount) :
    ∃ sender receiver, eventParties eff actors event = .ok (sender, receiver) ∧
      source.parties actors event = some (sender, receiver) := by
  cases actors with
  | some pairs =>
    have isPair := getElem?_eq_getElem (show event < pairs.length by
      rw [isLength pairs rfl, lowered.length]
      exact inside)
    exact ⟨_, _, by rw [eventParties, isPair], by rw [Source.parties, isPair]; rfl⟩
  | none =>
    obtain ⟨message, isMessage⟩ := Source.exists_messageAt inside
    obtain ⟨atom, isAtom, lowers⟩ := atomAt_of_messageAt lowered isMessage
    refine ⟨_, _, by rw [eventParties, isAtom]; rfl, ?_⟩
    rw [Source.parties, isMessage, lowers.sender, lowers.receiver]
    rfl

variable {paths : BranchPaths} (isOf : paths.Of (source.branches 0)) {candidate : Nat}
  (inside : candidate < source.eventCount) {owner receiver : Nat}
  (isOwner : source.parties actors candidate = some (owner, receiver))

include isOf inside isOwner

/-- The test of one earlier event. -/
theorem isGuard_spec {prior : Nat} (earlier : prior < candidate) :
    ∃ answer, isGuard eff actors paths owner candidate prior = .ok answer ∧
      (answer = true ↔ source.before prior candidate = true ∧
        source.InvolvesSender actors prior candidate) := by
  obtain ⟨sender, other, isParties, parties⟩ :=
    eventParties_eq lowered isLength (earlier.trans inside)
  obtain ⟨separated, isSeparated, separates⟩ := isOf.separation_spec earlier
  have isBefore : separated.isNone = true ↔ source.before prior candidate = true := by
    have before := Source.before_iff (Nat.zero_le prior) earlier
      (show candidate < 0 + source.eventCount by omega)
    rw [Nat.sub_zero, Nat.sub_zero] at before
    rw [before, Option.isNone_iff_eq_none]
    constructor
    · rintro rfl branch mem splits
      cases (separates branch.kind).mpr ⟨branch, mem, rfl, splits⟩
    · intro noSplit
      refine Option.eq_none_iff_forall_ne_some.mpr fun kind isKind => ?_
      obtain ⟨branch, mem, _, splits⟩ := (separates kind).mp isKind
      exact noSplit branch mem splits
  have involves : source.InvolvesSender actors prior candidate ↔
      (sender = owner ∨ other = owner) := by
    constructor
    · rintro ⟨_, _, _, isPrior, found, isFound, same⟩
      cases isPrior.symm.trans parties
      cases isFound.symm.trans isOwner
      exact same
    · intro same
      exact ⟨sender, other, receiver, parties, owner, isOwner, same⟩
  unfold isGuard
  rw [isParties, Run.bind_ok]
  dsimp only
  split
  · rename_i same
    rw [isSeparated, Run.bind_ok]
    exact ⟨_, rfl, isBefore.trans (and_iff_left (involves.mpr same)).symm⟩
  · rename_i ne
    exact ⟨false, rfl, iff_of_false Bool.false_ne_true fun both => ne (involves.mp both.2)⟩

omit lowered isLength isOwner in
/-- A guard precedes the candidate on every path when every route around it is around the
candidate. -/
theorem precedesOnEveryPath_of_before {prior : Nat} (earlier : prior < candidate)
    (before : source.before prior candidate = true) :
    ∃ answer, paths.precedesOnEveryPath prior candidate = .ok answer ∧
      (answer = true ↔ ∀ branch ∈ source.branches 0, branch.kind = .route →
        branch.Holds prior → branch.Holds candidate) := by
  refine isOf.precedesOnEveryPath_spec earlier ?_
  rw [← Source.before_iff (Nat.zero_le prior) earlier (by omega)]
  exact before

variable {priors : List Nat}

/-- The scan over the earlier events finds a guard that precedes on every path, or it says whether
there is a guard. -/
theorem scanGuards_spec (earlier : ∀ prior ∈ priors, prior < candidate) (conditional : Bool) :
    ∃ result, scanGuards eff actors paths owner candidate priors conditional = .ok result ∧
      (result = none ↔ ∃ prior ∈ priors, (source.before prior candidate = true ∧
          source.InvolvesSender actors prior candidate) ∧
        ∀ branch ∈ source.branches 0, branch.kind = .route → branch.Holds prior →
          branch.Holds candidate) ∧
      ∀ guarded, result = some guarded → (guarded = true ↔ conditional = true ∨
        ∃ prior ∈ priors, source.before prior candidate = true ∧
          source.InvolvesSender actors prior candidate) := by
  induction priors generalizing conditional with
  | nil =>
    refine ⟨some conditional, rfl, iff_of_false (by rintro ⟨⟩) (by rintro ⟨_, ⟨⟩, _⟩), ?_⟩
    rintro _ ⟨⟩
    exact (or_iff_left (by rintro ⟨_, ⟨⟩, _⟩)).symm
  | cons prior priors hyp =>
    rw [forall_mem_cons] at earlier
    obtain ⟨answer, isAnswer, answers⟩ :=
      isGuard_spec lowered isLength isOf inside isOwner earlier.1
    simp only [exists_mem_cons_iff]
    rw [scanGuards, isAnswer, Run.bind_ok]
    cases answer with
    | false =>
      obtain ⟨result, isResult, onNone, onSome⟩ := hyp earlier.2 conditional
      have noGuard := answers.not.mp Bool.false_ne_true
      refine ⟨result, isResult, onNone.trans (or_iff_right fun both => noGuard both.1).symm, ?_⟩
      intro guarded isGuarded
      exact (onSome guarded isGuarded).trans (or_congr_right (or_iff_right noGuard).symm)
    | true =>
      have guards := answers.mp rfl
      obtain ⟨precedes, isPrecedes, precedesIff⟩ :=
        precedesOnEveryPath_of_before isOf inside earlier.1 guards.1
      rw [if_pos rfl, isPrecedes, Run.bind_ok]
      cases precedes with
      | true =>
        refine ⟨none, rfl, iff_of_true rfl (.inl ⟨guards, precedesIff.mp rfl⟩), ?_⟩
        rintro _ ⟨⟩
      | false =>
        obtain ⟨result, isResult, onNone, onSome⟩ := hyp earlier.2 true
        have notAll := precedesIff.not.mp Bool.false_ne_true
        refine ⟨result, isResult, onNone.trans (or_iff_right fun both => notAll both.2).symm, ?_⟩
        intro guarded isGuarded
        rw [onSome guarded isGuarded]
        exact iff_of_true (.inl rfl) (.inr (.inl guards))

/-- Recording the guards sets the bits of their arms. -/
theorem recordGuards_spec (earlier : ∀ prior ∈ priors, prior < candidate)
    (forked : ∀ prior ∈ priors, source.before prior candidate = true →
      source.InvolvesSender actors prior candidate → paths.eventForks prior ≠ none)
    (arms : Nat → GuardedArms) :
    ∃ result, priors.foldlM (recordGuards eff actors paths owner candidate) arms = .ok result ∧
      ∀ (outer : Nat) (branch : Branch), (source.branches 0)[outer]? = some branch → ∀ inLeft,
        (result outer).side inLeft = true ↔ (arms outer).side inLeft = true ∨
          ∃ prior ∈ priors, (source.before prior candidate = true ∧
              source.InvolvesSender actors prior candidate) ∧
            paths.eventForks prior = some outer ∧ decide (prior < branch.split) = inLeft := by
  induction priors generalizing arms with
  | nil =>
    exact ⟨arms, rfl, fun outer branch isBranch inLeft =>
      (or_iff_left (by rintro ⟨_, ⟨⟩, _⟩)).symm⟩
  | cons prior priors hyp =>
    rw [forall_mem_cons] at earlier forked
    obtain ⟨answer, isAnswer, answers⟩ :=
      isGuard_spec lowered isLength isOf inside isOwner earlier.1
    simp only [exists_mem_cons_iff]
    rw [foldlM_cons, recordGuards, isAnswer, Run.bind_ok]
    cases answer with
    | false =>
      have noGuard := answers.not.mp Bool.false_ne_true
      obtain ⟨result, isResult, sides⟩ := hyp earlier.2 forked.2 arms
      refine ⟨result, isResult, fun outer branch isBranch inLeft => ?_⟩
      rw [sides outer branch isBranch inLeft]
      exact or_congr_right (or_iff_right fun both => noGuard both.1).symm
    | true =>
      have guards := answers.mp rfl
      obtain ⟨index, isIndex⟩ := Option.ne_none_iff_exists'.mp (forked.1 guards.1 guards.2)
      have holder : index ∈ Ancestry.holders Branch.start Branch.stop (source.branches 0) prior :=
        mem_of_head? ((isOf.painted.seen prior).symm.trans isIndex)
      obtain ⟨found, isFound, _⟩ := Ancestry.mem_holders.mp holder
      obtain ⟨fork, isFork, isSplit, _, _⟩ := isOf.forkAt isFound
      rw [if_pos rfl, BranchPaths.recordGuard, isIndex]
      dsimp only
      rw [isFork, Run.bind_ok, isSplit]
      obtain ⟨result, isResult, sides⟩ := hyp earlier.2 forked.2
        (Function.update arms index ((arms index).mark (prior < found.split)))
      refine ⟨result, isResult, fun outer branch isBranch inLeft => ?_⟩
      rw [sides outer branch isBranch inLeft, ← or_assoc]
      refine or_congr_left ?_
      by_cases same : outer = index
      · subst same
        cases isFound.symm.trans isBranch
        rw [Function.update_self, GuardedArms.side_mark, Bool.or_eq_true, decide_eq_true_eq]
        exact or_congr_right ⟨fun isSide => ⟨guards, rfl, isSide⟩, fun both => both.2.2⟩
      · rw [Function.update_of_ne same]
        exact (or_iff_left fun both => same (Option.some.inj both.2.1).symm).symm

/-- The test of a candidate says whether some choice keeps it free of guards. -/
theorem outboundRollHead_spec (start : Nat) :
    ∃ head, outboundRollHead eff actors paths start candidate = .ok head ∧
      (head = true ↔ ¬ source.Guarded 0 (source.GuardOf actors start candidate) candidate) := by
  obtain ⟨sender, other, isParties, parties⟩ := eventParties_eq lowered isLength inside
  cases parties.symm.trans isOwner
  have priors : ∀ prior, prior ∈ (List.range' start (candidate - start)).reverse ↔
      start ≤ prior ∧ prior < candidate := by
    intro prior
    rw [mem_reverse, mem_range'_1]
    omega
  have earlier : ∀ prior ∈ (List.range' start (candidate - start)).reverse, prior < candidate :=
    fun prior mem => ((priors prior).mp mem).2
  obtain ⟨result, isResult, onNone, onSome⟩ :=
    scanGuards_spec lowered isLength isOf inside isOwner earlier false
  have together : ∀ event, source.GuardOf actors start candidate event →
      ∀ branch ∈ source.branches 0,
        ¬ branch.Splits event candidate ∧ ¬ branch.Splits candidate event := by
    intro event guards branch mem
    have before := (Source.before_iff (Nat.zero_le event) guards.1.2 (by omega)).mp guards.2.1
    refine ⟨before branch mem, fun splits => ?_⟩
    have ordered := guards.1.2
    unfold Branch.Splits at splits
    omega
  unfold outboundRollHead
  rw [isParties, Run.bind_ok]
  dsimp only
  rw [isResult, Run.bind_ok]
  match result with
  | none =>
    obtain ⟨prior, mem, guards, around⟩ := onNone.mp rfl
    refine ⟨false, rfl, iff_of_false Bool.false_ne_true (not_not.mpr ?_)⟩
    have isGuard : source.GuardOf actors start candidate prior :=
      ⟨(priors prior).mp mem, guards⟩
    exact Source.guarded_of_shared_routes inside (earlier prior mem) isGuard
      (together prior isGuard) around
  | some false =>
    have noGuard := (onSome false rfl).not.mp Bool.false_ne_true
    refine ⟨true, rfl, iff_of_true rfl fun guarded => noGuard (.inr ?_)⟩
    obtain ⟨env, present⟩ := source.exists_assignment_of_lt inside
    obtain ⟨event, _, guards⟩ := guarded env fun _ _ => present
    exact ⟨event, (priors event).mpr guards.1, guards.2⟩
  | some true =>
    have forked : ∀ event, source.GuardOf actors start candidate event →
        paths.eventForks event ≠ none := by
      intro event guards noFork
      rw [isOf.painted.seen, Ancestry.head?_holders_eq_none] at noFork
      have notNone : ¬ (some true = none) := Option.some_ne_none true
      exact onNone.not.mp notNone ⟨event, (priors event).mpr guards.1, guards.2,
        fun branch mem _ holds => absurd holds (noFork branch mem)⟩
    obtain ⟨arms, isArms, sides⟩ := recordGuards_spec lowered isLength isOf inside isOwner earlier
      (fun prior mem before involves =>
        forked prior ⟨(priors prior).mp mem, before, involves⟩) fun _ => ⟨false, false⟩
    have recorded : BranchPaths.Recorded paths (source.branches 0)
        (source.GuardOf actors start candidate) candidate paths.forks.length arms := by
      intro outer branch isBranch inLeft
      rw [sides outer branch isBranch inLeft]
      constructor
      · rintro (isBit | ⟨prior, mem, guards, isFork⟩)
        · cases inLeft <;> cases isBit
        · exact .inl ⟨prior, ⟨(priors prior).mp mem, guards⟩, isFork⟩
      · rintro (⟨event, guards, isFork⟩ | ⟨inner, child, behind, isChild, _⟩)
        · exact .inr ⟨event, (priors event).mpr guards.1, guards.2, isFork⟩
        · have inBounds := (List.getElem?_eq_some_iff.mp isChild).1
          rw [isOf.length_forks] at behind
          omega
    obtain ⟨answer, isAnswer, answers⟩ := isOf.guardsEveryPath_spec together forked recorded
    rw [isArms, Run.bind_ok, isAnswer, Run.bind_ok]
    refine ⟨!answer, rfl, ?_⟩
    rw [← answers, Bool.not_eq_true', Bool.not_eq_true]

end

/-! ### The conflicts of a roll -/

section

variable {eff : EffList} {source : Source} (lowered : eff.Lowered source) {paths : BranchPaths}
  (isOf : paths.Of (source.branches 0))

include isOf

variable {head : Nat}

theorem continuationConflict_spec {bodyEnd : Nat} (inside : head < bodyEnd) (later : Nat) :
    ∃ answer, continuationConflict paths bodyEnd head later = .ok answer ∧
      (answer = none ↔ (bodyEnd ≤ later → source.OppositeArms head later)) := by
  unfold continuationConflict
  by_cases behind : bodyEnd ≤ later
  · obtain ⟨separated, isSeparated, separates⟩ := isOf.separation_spec (inside.trans_le behind)
    rw [if_pos behind, isSeparated, Run.bind_ok]
    simp only [behind, forall_const, Source.oppositeArms_iff, ← separates]
    split
    · rename_i apart
      exact ⟨_, rfl, iff_of_false (Option.some_ne_none _) apart⟩
    · rename_i together
      exact ⟨none, rfl, iff_of_true rfl (not_not.mp together)⟩
  · rw [if_neg behind]
    exact ⟨none, rfl, iff_of_true rfl fun isBehind => absurd isBehind behind⟩

/-- The search behind the body finds an event with the key of the head, unless all of them are
excluded by a route. -/
theorem laterConflict_spec (keys : Nat → Nat) (len : Nat) {bodyEnd : Nat}
    (inside : head < bodyEnd) :
    ∃ answer, laterConflict paths keys (sortedSelectorEvents keys len) len bodyEnd head =
        .ok answer ∧
      (answer = none ↔ ∀ later, bodyEnd ≤ later → later < len → keys later = keys head →
        source.OppositeArms head later) := by
  obtain ⟨low, isLow, isEqual⟩ := lowerBound_sortedSelectorEvents keys len (keys head)
  unfold laterConflict
  rw [isLow, Run.bind_ok]
  obtain ⟨answer, isAnswer, finds⟩ := Run.findSomeM_spec fun position
      (_ : position ∈ (List.range' low (len - low)).takeWhile fun position =>
        decide (keys (sortedSelectorEvents keys len position) = keys head)) =>
    continuationConflict_spec isOf inside (sortedSelectorEvents keys len position)
  refine ⟨answer, isAnswer, finds.trans ⟨?_, ?_⟩⟩
  · intro excluded later behind below isKey
    obtain ⟨position, positionInside, rfl⟩ := exists_sortedSelectorEvents keys len below
    exact excluded position ((isEqual position).mpr ⟨positionInside, isKey⟩) behind
  · intro excluded position mem behind
    obtain ⟨positionInside, isKey⟩ := (isEqual position).mp mem
    exact excluded _ behind (sortedSelectorEvents_lt keys len positionInside) isKey

variable {keys : Nat → Nat} {actors : Option (List ActorPair)}
  (isLength : ∀ pairs, actors = some pairs → pairs.length = eff.len)
  (isKey : ∀ first second left right, source.messageAt first = some left →
    source.messageAt second = some right →
    (keys first = keys second ↔ left.selector = right.selector))

include lowered isLength isKey

omit isKey in
/-- A head of the body is free of conflicts when every later event with its key is excluded. -/
theorem headConflict_spec (isScope : node ∈ source.scopes 0 0 .singlePass)
    (isRoll : node.composite = .roll body) (inside : node.start ≤ head ∧ head < node.stop) :
    ∃ answer, headConflict eff actors paths keys (sortedSelectorEvents keys eff.len) node.start
        node.stop head = .ok answer ∧
      (answer = none ↔ (source.OutboundHead actors body node.start head → ∀ later,
        node.stop ≤ later → later < eff.len → keys later = keys head →
          source.OppositeArms head later)) := by
  have stopInside := (Source.scopes_inside isScope).2
  rw [Nat.zero_add] at stopInside
  have headInside : head < source.eventCount := inside.2.trans_le stopInside
  obtain ⟨owner, receiver, _, isOwner⟩ := eventParties_eq lowered isLength headInside
  obtain ⟨isHead, isTest, tests⟩ :=
    outboundRollHead_spec lowered isLength isOf headInside isOwner node.start
  rw [← Source.outboundHead_iff isScope isRoll inside] at tests
  unfold headConflict
  rw [isTest, Run.bind_ok]
  cases isHead with
  | true =>
    obtain ⟨found, isFound, finds⟩ := laterConflict_spec isOf keys eff.len inside.2
    refine ⟨found, isFound, finds.trans ?_⟩
    exact ⟨fun excluded _ => excluded, fun excluded => excluded (tests.mp rfl)⟩
  | false =>
    exact ⟨none, rfl, iff_of_true rfl fun isHead =>
      absurd (tests.mpr isHead) Bool.false_ne_true⟩

/-- The entry of a roll is free of conflicts when no head of its body clashes behind it. -/
theorem markerConflict_spec (isScope : node ∈ source.scopes 0 0 .singlePass)
    (isRoll : node.composite = .roll body) :
    ∃ answer, markerConflict eff actors paths keys (sortedSelectorEvents keys eff.len)
        node.marker = .ok answer ∧
      (answer = none ↔ ¬ source.ReentryClash actors body node.start) := by
  have isStop : node.stop = node.start + body.eventCount := by
    rw [ScopeNode.stop, isRoll]
    rfl
  have stopInside := (Source.scopes_inside isScope).2
  rw [Nat.zero_add] at stopInside
  have bodyCount := body.eventCount_pos
  have isRange : rollBodyRange node.marker = some (node.start, node.stop) := by
    obtain ⟨ordinal, start, composite, reentry⟩ := node
    subst isRoll
    rw [isStop]
    exact (if_neg (by simp [ScopeNode.marker, ScopeEvent.isEnter])).trans
      (if_neg (by simp only [ScopeNode.marker]; omega))
  have isEntry : node.marker.event.isPrimaryEnter ∧ node.marker.scopeId.kind = .roll := by
    refine ⟨node.isPrimaryEnter_marker, ?_⟩
    rw [node.scopeId_marker, isRoll]
    rfl
  have range : ∀ head, head ∈ List.range' node.start (node.stop - node.start) ↔
      node.start ≤ head ∧ head < node.stop := by
    intro head
    rw [mem_range'_1]
    omega
  obtain ⟨answer, isAnswer, finds⟩ := Run.findSomeM_spec fun head mem =>
    headConflict_spec lowered isOf isLength isScope isRoll ((range head).mp mem)
  refine ⟨answer, by rw [markerConflict, if_pos isEntry, isRange]; exact isAnswer, finds.trans ?_⟩
  constructor
  · rintro excluded ⟨head, later, first, second, inside, behind, isFirst, isSecond, same, apart,
      isHead⟩
    rw [← isStop] at inside behind
    refine apart (excluded head ((range head).mpr inside) isHead later behind ?_ ?_)
    · rw [lowered.length]
      exact Source.messageAt_lt isSecond
    · exact (isKey later head second first isSecond isFirst).mpr same.symm
  · intro noClash head mem isHead later behind below sameKey
    by_contra apart
    have inside := (range head).mp mem
    rw [lowered.length] at below
    obtain ⟨first, isFirst⟩ := Source.exists_messageAt
      (show head < source.eventCount from inside.2.trans_le stopInside)
    obtain ⟨second, isSecond⟩ := Source.exists_messageAt below
    exact noClash ⟨head, later, first, second, isStop ▸ inside, isStop ▸ behind, isFirst, isSecond,
      ((isKey later head second first isSecond isFirst).mp sameKey).symm, apart, isHead⟩

/-- The entry of a scope is free of conflicts when it is not a roll with a clash. -/
theorem markerConflict_node (isScope : node ∈ source.scopes 0 0 .singlePass) :
    ∃ answer, markerConflict eff actors paths keys (sortedSelectorEvents keys eff.len)
        node.marker = .ok answer ∧
      (answer = none ↔ ∀ body, node.composite = .roll body →
        ¬ source.ReentryClash actors body node.start) := by
  cases composite : node.composite with
  | roll body =>
    obtain ⟨answer, isAnswer, answers⟩ :=
      markerConflict_spec lowered isOf isLength isKey isScope composite
    exact ⟨answer, isAnswer, answers.trans (by simp)⟩
  | route left right resolver | parallel left right =>
    refine ⟨none, if_neg fun isEntry => ?_, iff_of_true rfl (by simp)⟩
    rw [node.scopeId_marker, composite] at isEntry
    cases isEntry.2

end

/-! ### The rolls of a source -/

/-- The check of the rolls of a lowered source, whatever lanes its events have, returns. It reports
no conflict exactly when no roll has a head that clashes with an event behind its body. -/
theorem rollReentryEndpointConflict_none_iff (capacity span : Nat) (image : Option ActorImage)
    (source : Source) (emitted eff : EffList)
    (isOk : emitSource capacity image source = .ok (span, emitted))
    (isEff : emitted.EqualButLanes eff) (isCapacity : eff.capacity = emitted.capacity)
    (actors : Option (List ActorPair))
    (isLength : ∀ pairs, actors = some pairs → pairs.length = eff.len) :
    ∃ conflict, rollReentryEndpointConflict eff actors = .ok conflict ∧
      (conflict = none ↔ ∀ node ∈ source.scopes 0 0 .singlePass, ∀ body,
        node.composite = .roll body → ¬ source.ReentryClash actors body node.start) := by
  have lowered := (emitSource_lowered isOk).equalButLanes isEff
  obtain ⟨room, domain⟩ := emitSource_room isOk
  unfold rollReentryEndpointConflict
  rw [if_neg]
  · split
    · rename_i noRoll
      refine ⟨none, rfl, iff_of_true rfl fun node isScope body isRoll => ?_⟩
      have kind := of_decide_eq_true (all_eq_true.mp noRoll _ (lowered.marker_mem isScope))
      rw [node.scopeId_marker, isRoll] at kind
      exact absurd rfl kind
    · obtain ⟨paths, isPaths, isOf⟩ := BranchPaths.new_spec lowered
        (show source.eventCount ≤ eff.capacity from isCapacity ▸ room)
        (domain.trans (by decide))
      obtain ⟨keys, isKeys, isKey⟩ := outboundSelectors_spec lowered
      rw [isPaths, Run.bind_ok, isKeys, Run.bind_ok]
      obtain ⟨conflict, isConflict, finds⟩ := Run.findSomeM_spec fun marker mem =>
        lowered.visit_spec mem (fun node isScope isMarker => isMarker ▸
          markerConflict_node lowered isOf isLength isKey isScope)
          fun notEntry => if_neg (by simp [notEntry])
      refine ⟨conflict, isConflict, finds.trans ⟨?_, ?_⟩⟩
      · intro all node isScope
        exact all node.marker (lowered.marker_mem isScope) node isScope rfl
      · intro all marker _ node isScope _
        exact all node isScope
  · cases actors with
    | none => exact Bool.false_ne_true
    | some pairs => simpa using isLength pairs rfl

/-- A roll that a role may start again with the message that follows it. -/
def ambiguousRoll : Source :=
  .seq (.roll (.seq (.send ⟨⟨0, 2⟩, ⟨0, 1⟩, 1, .wire 7⟩) (.send ⟨⟨0, 0⟩, ⟨0, 1⟩, 2, .wire 7⟩)))
    (.send ⟨⟨0, 0⟩, ⟨0, 3⟩, 2, .wire 7⟩)

/-- The arena of this source. -/
def ambiguousArena : EffList where
  events := [⟨2, 1, 1, .wire 7, 0⟩, ⟨0, 1, 2, .wire 7, 0⟩, ⟨0, 3, 2, .wire 7, 0⟩]
  markers := [⟨0, 2, ⟨.roll, 0⟩, .enter .roll, .singlePass⟩,
    ⟨2, 2, ⟨.roll, 0⟩, .exit, .singlePass⟩]
  resolvers := []
  capacity := 5
  eventCapacity := 3
  markerCapacity := 2
  resolverCapacity := 0

theorem ambiguousRoll_conflicts :
    ∃ conflict, rollReentryEndpointConflict ambiguousArena none = .ok (some conflict) := by
  obtain ⟨conflict, isConflict, finds⟩ := rollReentryEndpointConflict_none_iff 5 1 none
    ambiguousRoll ambiguousArena ambiguousArena (by decide +kernel) (EffList.EqualButLanes.refl _)
    rfl none nofun
  cases conflict with
  | some conflict => exact ⟨conflict, isConflict⟩
  | none =>
    refine absurd ?_ (finds.mp rfl _ mem_cons_self _ rfl)
    refine ⟨1, 2, _, _, by decide, by decide, rfl, rfl, rfl, ?_, fun _ => .left,
      mem_cons_of_mem _ mem_cons_self, ?_⟩
    · rintro ⟨_, ⟨⟩, _⟩
    · rintro event mem before ⟨sender, receiver, _, isParties, owner, isOwner, involved⟩
      obtain rfl : event = 0 := by
        have ordered := Source.lt_of_before before
        omega
      cases isParties
      cases isOwner
      exact absurd involved (by decide)

end Hibana
