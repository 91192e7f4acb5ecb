/-
This file proves which routes the check of their shape accepts.

The check accepts a route when the visible heads of its arms have one sender
and, without a resolver, no head of one arm is selected like a head of the
other. It agrees with the same condition on all heads except where a head in
the right arm of a parallel that a route leads breaks it.
-/

import HibanaChoreography.Lowering.RouteHeads

namespace Hibana

open Outcome ScopeMarkers List

/-! ### Selectors -/

namespace EventPayload

theorem selectorBits_endpoint (role : UInt8) :
    (endpoint role).selectorBits = 2 ^ 32 + role.toNat := by
  have bound : role.toNat < 2 ^ 32 := role.toNat_lt.trans (by decide)
  rw [selectorBits, ← Nat.shiftLeft_add_eq_or_of_lt bound, Nat.one_shiftLeft]

theorem selectorBits_lt (payload : EventPayload) : payload.selectorBits < 2 ^ 40 := by
  cases payload with
  | wire schema => exact schema.toNat_lt.trans (by decide)
  | endpoint role =>
    have bound := role.toNat_lt
    rw [selectorBits_endpoint]
    omega

theorem selectorBits_injective {first second : EventPayload}
    (same : first.selectorBits = second.selectorBits) : first = second := by
  cases first with
  | wire schema =>
    have bound := schema.toNat_lt
    cases second with
    | wire other => exact congrArg wire (UInt32.toNat_inj.mp same)
    | endpoint role =>
      rw [selectorBits_endpoint, selectorBits] at same
      omega
  | endpoint role =>
    cases second with
    | wire other =>
      have bound := other.toNat_lt
      rw [selectorBits_endpoint, selectorBits] at same
      omega
    | endpoint other =>
      rw [selectorBits_endpoint, selectorBits_endpoint] at same
      exact congrArg endpoint (UInt8.toNat_inj.mp (by omega))

end EventPayload

variable {event : Nat}

namespace EndpointSelector

theorem outbound_bits (atom : EffAtom) :
    (outbound atom).bits =
      (atom.sender.toNat * 2 ^ 8 + atom.label.toNat) * 2 ^ 40 + atom.payload.selectorBits := by
  have labelBound : atom.label.toNat <<< 40 < 2 ^ 48 := by
    have bound := atom.label.toNat_lt
    rw [Nat.shiftLeft_eq]
    omega
  have packed : atom.sender.toNat <<< 48 ||| atom.label.toNat <<< 40 =
      (atom.sender.toNat * 2 ^ 8 + atom.label.toNat) <<< 40 := by
    rw [← Nat.shiftLeft_add_eq_or_of_lt labelBound]
    omega
  unfold outbound
  rw [outboundKind, Nat.zero_shiftLeft, Nat.zero_or, packed,
    ← Nat.shiftLeft_add_eq_or_of_lt atom.payload.selectorBits_lt, Nat.shiftLeft_eq]

/-- Outbound selectors agree exactly on events with one sender, one label and one payload. -/
theorem outbound_eq_iff (first second : EffAtom) :
    outbound first = outbound second ↔ first.sender = second.sender ∧ first.label = second.label ∧
        first.payload = second.payload := by
  constructor
  · intro same
    have bits := congrArg EndpointSelector.bits same
    rw [outbound_bits, outbound_bits] at bits
    have firstLabel := first.label.toNat_lt
    have secondLabel := second.label.toNat_lt
    have firstPayload := first.payload.selectorBits_lt
    have secondPayload := second.payload.selectorBits_lt
    exact ⟨UInt8.toNat_inj.mp (by omega), UInt8.toNat_inj.mp (by omega),
      EventPayload.selectorBits_injective (by omega)⟩
  · rintro ⟨isSender, isLabel, isPayload⟩
    rw [outbound, outbound, isSender, isLabel, isPayload]

theorem outbound_kind (atom : EffAtom) : (outbound atom).bits >>> kindShift = 0 := by
  have senderBound := atom.sender.toNat_lt
  have labelBound := atom.label.toNat_lt
  have payloadBound := atom.payload.selectorBits_lt
  rw [outbound_bits, kindShift, Nat.shiftRight_eq_div_pow]
  omega

theorem isOutbound_outbound (atom : EffAtom) : (outbound atom).isOutbound = true := by
  rw [isOutbound, outbound_kind, outboundKind, decide_eq_true rfl]

theorem isInboundEvidence_outbound (atom : EffAtom) :
    (outbound atom).isInboundEvidence = false := by
  rw [isInboundEvidence, outbound_kind, inboundEvidenceKind]
  rfl

/-- Inbound evidence names its event. -/
theorem inboundEvidence_event {selector : EndpointSelector}
    (isSelector : inboundEvidence event = some selector) :
    selector.isInboundEvidence = true ∧ selector.event = event := by
  unfold inboundEvidence at isSelector
  split at isSelector
  · cases isSelector
  · rename_i small
    cases isSelector
    rw [compactEventIdentityCapacity] at small
    have bound : event < 2 ^ 56 := by omega
    have packed : inboundEvidenceKind <<< kindShift ||| event = 2 ^ 56 + event := by
      rw [inboundEvidenceKind, kindShift, ← Nat.shiftLeft_add_eq_or_of_lt bound, Nat.one_shiftLeft]
    refine ⟨?_, ?_⟩
    · rw [isInboundEvidence, packed, kindShift, Nat.shiftRight_eq_div_pow, inboundEvidenceKind,
        decide_eq_true_eq]
      dsimp only
      omega
    · rw [EndpointSelector.event, packed, kindShift, Nat.one_shiftLeft,
        Nat.and_two_pow_sub_one_eq_mod]
      dsimp only
      omega

end EndpointSelector

/-! ### Heads that agree -/

/-- What distinguishes a message at its sender. -/
def Message.selector (message : Message) : UInt8 × UInt8 × Payload :=
  (message.fromKey.role, message.label, message.payload)

/-- The events of lowered messages have one outbound selector exactly when the messages agree. -/
theorem EffAtom.Lowers.outbound_eq_iff {first second : EffAtom} {left right : Message}
    (isFirst : first.Lowers left) (isSecond : second.Lowers right) :
    EndpointSelector.outbound first = EndpointSelector.outbound second ↔
      left.selector = right.selector := by
  have payloads : first.payload = second.payload ↔ left.payload = right.payload := by
    constructor
    · intro same
      rw [SourceLowering.raise_of_lowerPayload isFirst.payload,
        SourceLowering.raise_of_lowerPayload isSecond.payload, same]
    · intro same
      have firstPayload := isFirst.payload
      rw [same, isSecond.payload] at firstPayload
      exact (Except.ok.inj firstPayload).symm
  rw [EndpointSelector.outbound_eq_iff, payloads, isFirst.sender, isSecond.sender, isFirst.label,
    isSecond.label, Message.selector, Message.selector, Prod.mk.injEq, Prod.mk.injEq]

/-- One sender for the heads of both arms and, without a resolver, no selector on both sides. -/
def HeadsAgree (leftHeads rightHeads : List Message) (resolver : Option UInt16) : Prop :=
  (∃ role, ∀ message ∈ leftHeads ++ rightHeads, message.fromKey.role = role) ∧
    (resolver = none → ∀ left ∈ leftHeads, ∀ right ∈ rightHeads, left.selector ≠ right.selector)

/-- A hidden head has another sender than a visible head or, without a resolver, the selector of a
head of the other arm. -/
def HiddenDisagrees (left right : Source) (resolver : Option UInt16) : Prop :=
  (∃ hidden ∈ left.hiddenHeads ++ right.hiddenHeads,
    ∃ seen ∈ left.visibleHeads ++ right.visibleHeads, hidden.fromKey.role ≠ seen.fromKey.role) ∨
  (resolver = none ∧ ∃ first ∈ left.heads, ∃ second ∈ right.heads,
    (first ∈ left.hiddenHeads ∨ second ∈ right.hiddenHeads) ∧ first.selector = second.selector)

/-- All heads agree when the visible ones do and no hidden one disagrees. -/
theorem headsAgree_iff (left right : Source) (resolver : Option UInt16) :
    HeadsAgree left.heads right.heads resolver ↔
      HeadsAgree left.visibleHeads right.visibleHeads resolver ∧
        ¬ HiddenDisagrees left right resolver := by
  have nonempty : left.visibleHeads ≠ [] :=
    (FirstVisibleController.describes_visible left).nonempty
  constructor
  · rintro ⟨⟨role, sends⟩, differ⟩
    have isSender : ∀ message, message ∈ left.heads ∨ message ∈ right.heads →
        message.fromKey.role = role := fun message mem =>
      sends message (mem_append.mpr mem)
    refine ⟨⟨⟨role, fun message mem => isSender message ?_⟩, ?_⟩, ?_⟩
    · exact (mem_append.mp mem).imp (fun inLeft => Source.mem_heads_iff.mpr (.inl inLeft))
        fun inRight => Source.mem_heads_iff.mpr (.inl inRight)
    · intro isNone first isFirst second isSecond
      exact differ isNone first (Source.mem_heads_iff.mpr (.inl isFirst)) second
        (Source.mem_heads_iff.mpr (.inl isSecond))
    · rintro (⟨hidden, isHidden, seen, isSeen, other⟩ |
        ⟨isNone, first, isFirst, second, isSecond, _, same⟩)
      · refine other ((isSender hidden ?_).trans (isSender seen ?_).symm)
        · exact (mem_append.mp isHidden).imp
            (fun inLeft => Source.mem_heads_iff.mpr (.inr inLeft))
            fun inRight => Source.mem_heads_iff.mpr (.inr inRight)
        · exact (mem_append.mp isSeen).imp
            (fun inLeft => Source.mem_heads_iff.mpr (.inl inLeft))
            fun inRight => Source.mem_heads_iff.mpr (.inl inRight)
      · exact differ isNone first isFirst second isSecond same
  · rintro ⟨⟨⟨role, sends⟩, differ⟩, noHidden⟩
    refine ⟨⟨role, fun message mem => ?_⟩, ?_⟩
    · obtain ⟨seen, isSeen⟩ := exists_mem_of_ne_nil _ nonempty
      have seenBoth : seen ∈ left.visibleHeads ++ right.visibleHeads := mem_append_left _ isSeen
      by_cases isHidden : message ∈ left.hiddenHeads ++ right.hiddenHeads
      · by_contra other
        exact noHidden (.inl ⟨message, isHidden, seen, seenBoth, by rwa [sends seen seenBoth]⟩)
      · refine sends message ?_
        rw [mem_append] at isHidden mem ⊢
        push Not at isHidden
        exact mem.imp (fun inLeft => (Source.mem_heads_iff.mp inLeft).resolve_right isHidden.1)
          fun inRight => (Source.mem_heads_iff.mp inRight).resolve_right isHidden.2
    · intro isNone first isFirst second isSecond same
      by_cases isHidden : first ∈ left.hiddenHeads ∨ second ∈ right.hiddenHeads
      · exact noHidden (.inr ⟨isNone, first, isFirst, second, isSecond, isHidden, same⟩)
      · push Not at isHidden
        exact differ isNone first ((Source.mem_heads_iff.mp isFirst).resolve_right isHidden.1)
          second ((Source.mem_heads_iff.mp isSecond).resolve_right isHidden.2) same

/-! ### The walks over an arm -/

section

variable {eff : EffList} {root : Source} (lowered : eff.Lowered root)

include lowered

variable {message : Message} {atom : EffAtom}

theorem atomAt_of_messageAt (isMessage : root.messageAt event = some message) :
    ∃ atom, eff.atomAt event = .ok atom ∧ atom.Lowers message := by
  obtain ⟨atom, isAtom, lowers⟩ := lowered.events event message isMessage
  exact ⟨atom, by rw [EffList.atomAt, isAtom], lowers⟩

theorem controllerWalk_visits (low high : Nat) :
    (controllerWalk eff).Visits root low high FirstVisibleController.merge
      (.unique ·.fromKey.role) where
  skip := fun _ _ => rfl
  floor := fun _ => Nat.zero_le _
  combine := fun _ _ => rfl
  leaf := fun event message _ _ isMessage => by
    obtain ⟨atom, isAtom, lowers⟩ := atomAt_of_messageAt lowered isMessage
    dsimp only [controllerWalk]
    rw [isAtom, Run.bind_ok, lowers.sender]
    rfl

theorem matchesWalk_visits (lowers : atom.Lowers message) (low high : Nat) :
    (matchesWalk eff (EndpointSelector.outbound atom)).Visits root low high (· || ·)
      fun found => decide (found.selector = message.selector) where
  skip := fun start stop => by
    dsimp only [matchesWalk]
    rw [EndpointSelector.isInboundEvidence_outbound, Bool.false_and]
  floor := fun enter => le_rfl
  combine := Run.either_ok_ok
  leaf := fun event found _ _ isMessage => by
    obtain ⟨other, isOther, otherLowers⟩ := atomAt_of_messageAt lowered isMessage
    dsimp only [matchesWalk]
    rw [isOther, Run.bind_ok, atomMatchesSelector,
      if_pos (EndpointSelector.isOutbound_outbound atom), Run.pure_eq_ok]
    exact congrArg _ (decide_eq_decide.mpr (otherLowers.outbound_eq_iff lowers))

variable {part : Source} {start ordinal floor : Nat} {reentry : ReentryMark}
  {front back : List ScopeNode} (placed : Placed root part start ordinal reentry front back)

include placed

theorem firstVisibleController_eq :
    firstVisibleController eff start (start + part.eventCount) =
      .ok (part.visible FirstVisibleController.merge (.unique ·.fromKey.role)) :=
  VisibleWalk.walk_visible (controllerWalk_visits lowered start (start + part.eventCount)) lowered
    placed (Floor.zero eff _) (by omega) le_rfl le_rfl

theorem firstVisibleEndpointMatches_outbound (isFloor : Floor eff floor front.length)
    (lowers : atom.Lowers message) :
    firstVisibleEndpointMatches eff start (start + part.eventCount)
        (EndpointSelector.outbound atom) floor =
      .ok (part.visibleHeads.any fun found => decide (found.selector = message.selector)) := by
  rw [← Source.visible_or]
  exact VisibleWalk.walk_visible (matchesWalk_visits lowered lowers start (start + part.eventCount))
    lowered placed isFloor (by omega) le_rfl le_rfl

/-- An event of the left arm is no event of the right arm. -/
theorem firstVisibleEndpointMatchesAtom_eq (isFloor : Floor eff floor front.length)
    (lowers : atom.Lowers message) (early : event < start) :
    firstVisibleEndpointMatchesAtom eff start (start + part.eventCount) event atom floor =
      .ok (part.visibleHeads.any fun found => decide (found.selector = message.selector)) := by
  unfold firstVisibleEndpointMatchesAtom
  rw [firstVisibleEndpointMatches_outbound lowered placed isFloor lowers]
  cases isSelector : EndpointSelector.inboundEvidence event with
  | none => exact (Run.either_ok_ok _ _).trans (by rw [Bool.or_false])
  | some selector =>
    obtain ⟨isInbound, isEvent⟩ := EndpointSelector.inboundEvidence_event isSelector
    have isSkipped : (matchesWalk eff selector).skip start (start + part.eventCount) = true := by
      dsimp only [matchesWalk]
      rw [isInbound, isEvent, decide_eq_true early]
      rfl
    have insideRoot := placed.start_lt lowered
    have count := part.eventCount_pos
    dsimp only
    rw [firstVisibleEndpointMatches, VisibleWalk.run, VisibleWalk.walk, if_neg (by omega),
      isSkipped, if_pos rfl, matchesWalk, Run.either_ok_ok, Bool.or_false]

end

variable {eff : EffList} {root left right : Source} {enter : Nat}

/-- The conflicts walk compares the visible heads of two arms. -/
theorem firstVisibleEndpointSelectorConflictsFromMarkers_eq (lowered : eff.Lowered root)
    {leftStart rightStart : Nat} (leftArm : Placed.Arm root eff left leftStart enter)
    (rightArm : Placed.Arm root eff right rightStart enter)
    (ordered : leftStart + left.eventCount ≤ rightStart) :
    firstVisibleEndpointSelectorConflictsFromMarkers eff leftStart (leftStart + left.eventCount)
        rightStart (rightStart + right.eventCount) (enter + 1) (enter + 1) =
      .ok (left.visibleHeads.any fun first => right.visibleHeads.any fun second =>
        decide (second.selector = first.selector)) := by
  obtain ⟨_, _, _, _, leftPlaced, leftFloor⟩ := leftArm
  obtain ⟨_, _, _, _, rightPlaced, rightFloor⟩ := rightArm
  have visits : (conflictsWalk eff rightStart (rightStart + right.eventCount) (enter + 1)).Visits
      root leftStart (leftStart + left.eventCount) (· || ·) fun first =>
        right.visibleHeads.any fun second => decide (second.selector = first.selector) :=
    { skip := fun _ _ => rfl
      floor := fun _ => le_rfl
      combine := Run.either_ok_ok
      leaf := fun event message _ upper isMessage => by
        obtain ⟨atom, isAtom, lowers⟩ := atomAt_of_messageAt lowered isMessage
        dsimp only [conflictsWalk]
        rw [isAtom, Run.bind_ok]
        exact firstVisibleEndpointMatchesAtom_eq lowered rightPlaced rightFloor lowers (by omega) }
  rw [← Source.visible_or]
  exact VisibleWalk.walk_visible visits lowered leftPlaced leftFloor (by omega) le_rfl
    le_rfl

/-! ### The check of a route -/

/-- The arms of the scope whose entry is at an index of the markers. -/
theorem arms_of_entry (lowered : eff.Lowered root) {node : ScopeNode}
    (isScope : node ∈ root.scopes 0 0 .singlePass)
    (isEntry : eff.markers[enter]? = some node.marker)
    (arms : node.composite.arms = some (left, right)) :
    Placed.Arm root eff left node.start enter ∧
      Placed.Arm root eff right (node.start + left.eventCount) enter := by
  obtain ⟨inside, isMarker⟩ := List.getElem?_eq_some_iff.mp isEntry
  have primary := lowered.primary
  -- The markers up to the entry hold the entries of the scopes up to the node.
  rw [← take_append_drop enter eff.markers, drop_eq_getElem_cons inside, isMarker,
    filter_append, filter_cons, if_pos node.isPrimaryEnter_marker] at primary
  obtain ⟨before, found, after, isScopes, isBefore, isFound⟩ :
      ∃ before found after, root.scopes 0 0 .singlePass = before ++ found :: after ∧
        (eff.markers.take enter).filter (·.event.isPrimaryEnter) =
          before.map ScopeNode.marker ∧ found.marker = node.marker := by
    obtain ⟨before, rest, isScopes, isBefore, isRest⟩ := map_eq_append_iff.mp primary.symm
    obtain ⟨found, after, rfl, isFound, _⟩ := map_eq_cons_iff.mp isRest
    exact ⟨before, found, after, isScopes, isBefore.symm, isFound⟩
  obtain rfl := Source.scopes_marker_injective
    (by rw [isScopes]; exact mem_append_right _ mem_cons_self) isScope isFound
  obtain ⟨rest, placed⟩ := (Placed.self root).scope isScopes
  refine placed.arms_of_scope arms ⟨inside, ?_⟩
  rw [take_add_one, isEntry, filter_append, isBefore, length_append, length_map]
  exact Nat.add_le_add_left (length_filter_le _ _) _

variable {ordinal start : Nat} {resolver : Option UInt16} {reentry : ReentryMark}

/-- A scope has a resolver when its node has one. -/
theorem resolverForScope_eq (lowered : eff.Lowered root)
    (isScope : ⟨ordinal, start, .route left right resolver, reentry⟩ ∈
      root.scopes 0 0 .singlePass) :
    eff.resolverForScope ⟨.route, ordinal⟩ = .ok resolver := by
  -- A resolver of this scope is the resolver of this node.
  have isResolver : ∀ entry ∈ eff.resolvers, entry.scope = ⟨.route, ordinal⟩ →
      resolver = some entry.resolverId := by
    intro entry mem isEntry
    obtain ⟨node, isNode, inLeft, inRight, resolverId, isRoute, rfl⟩ :=
      (lowered.resolvers entry).mp mem
    have same := Source.scopes_ordinal_injective isNode isScope (ScopeId.mk.inj isEntry).2
    rw [same] at isRoute
    exact (Composite.route.inj isRoute).2.2
  rw [EffList.resolverForScope, if_neg (not_not.mpr rfl)]
  congr 1
  cases isFound : eff.resolvers.find? (·.scope = ⟨.route, ordinal⟩) with
  | some entry =>
    have isEntry := find?_some isFound
    rw [decide_eq_true_eq] at isEntry
    exact (isResolver entry (mem_of_find?_eq_some isFound) isEntry).symm
  | none =>
    cases resolver with
    | none => rfl
    | some resolverId =>
      have mem := (lowered.resolvers ⟨⟨.route, ordinal⟩, resolverId⟩).mpr
        ⟨_, isScope, left, right, resolverId, rfl, rfl⟩
      have notFound := find?_eq_none.mp isFound _ mem
      exact absurd (decide_eq_true rfl) notFound

/-- The check of a route returns; it accepts the route when its visible heads agree. -/
theorem routeControllerAndSelectors_eq (lowered : eff.Lowered root)
    (isScope : ⟨ordinal, start, .route left right resolver, reentry⟩ ∈ root.scopes 0 0 .singlePass)
    (isEntry : eff.markers[enter]? =
      some (ScopeNode.marker ⟨ordinal, start, .route left right resolver, reentry⟩)) :
    (∃ controller, routeControllerAndSelectors eff enter = .ok controller) ↔
      HeadsAgree left.visibleHeads right.visibleHeads resolver := by
  obtain ⟨leftArm, rightArm⟩ := arms_of_entry lowered isScope isEntry rfl
  have conflicts :=
    firstVisibleEndpointSelectorConflictsFromMarkers_eq lowered leftArm rightArm le_rfl
  obtain ⟨_, _, _, _, leftPlaced, _⟩ := leftArm
  obtain ⟨_, _, _, _, rightPlaced, _⟩ := rightArm
  have ranges : routeArmRangesFromFirstEnter eff.markers enter =
      .ok ⟨start, start + left.eventCount, start + left.eventCount,
        start + left.eventCount + right.eventCount⟩ := by
    rw [routeArmRangesFromFirstEnter, isEntry, Option.bind_some,
      ScopeNode.closedRouteArmRanges_marker rfl rfl]
    rfl
  have isMarker : markerAt eff.markers enter =
      .ok (ScopeNode.marker ⟨ordinal, start, .route left right resolver, reentry⟩) := by
    rw [markerAt, isEntry]
  have describes := (FirstVisibleController.describes_visible left).merge
    (FirstVisibleController.describes_visible right)
  unfold routeControllerAndSelectors
  rw [ranges, Run.checked_ok, Run.bind_ok, isMarker, Run.checked_ok, Run.bind_ok]
  rw [ScopeNode.scopeId_marker, Composite.kind, resolverForScope_eq lowered isScope,
    firstVisibleController_eq lowered leftPlaced, firstVisibleController_eq lowered rightPlaced,
    conflicts]
  simp only [Run.checked_ok, Run.bind_ok]
  cases isRole : (FirstVisibleController.merge _ _).role? with
  | none =>
    refine iff_of_false (by rintro ⟨_, ⟨⟩⟩) ?_
    rintro ⟨⟨role, sends⟩, _⟩
    rw [(describes.role_iff role).mpr sends] at isRole
    cases isRole
  | some controller =>
    have sends := (describes.role_iff controller).mp isRole
    dsimp only
    cases resolver with
    | some resolverId =>
      exact iff_of_true ⟨controller, rfl⟩ ⟨⟨controller, sends⟩, by simp⟩
    | none =>
      rw [if_pos Option.isNone_none]
      split
      · rename_i clash
        refine iff_of_false (by rintro ⟨_, ⟨⟩⟩) ?_
        rintro ⟨_, differ⟩
        obtain ⟨first, isFirst, clash⟩ := any_eq_true.mp clash
        obtain ⟨second, isSecond, same⟩ := any_eq_true.mp clash
        exact differ rfl first isFirst second isSecond (of_decide_eq_true same).symm
      · rename_i noClash
        refine iff_of_true ⟨controller, rfl⟩ ⟨⟨controller, sends⟩, ?_⟩
        intro _ first isFirst second isSecond same
        exact noClash (any_eq_true.mpr ⟨first, isFirst, any_eq_true.mpr
          ⟨second, isSecond, decide_eq_true same.symm⟩⟩)

/-- The check of a route on a lowered source, whatever lanes its events have. Acceptance is the
condition on all heads of its arms exactly when it does not happen that the visible heads agree
and a hidden one disagrees. -/
theorem routeControllerAndSelectors_accepts_iff (capacity span : Nat) (actors : Option ActorImage)
    (source : Source) (emitted eff : EffList)
    (isOk : emitSource capacity actors source = .ok (span, emitted))
    (isEff : emitted.EqualButLanes eff) (ordinal start : Nat) (left right : Source)
    (resolver : Option UInt16) (reentry : ReentryMark) (enter : Nat)
    (isScope : ⟨ordinal, start, .route left right resolver, reentry⟩ ∈
      source.scopes 0 0 .singlePass)
    (isEntry : eff.markers[enter]? =
      some (ScopeNode.marker ⟨ordinal, start, .route left right resolver, reentry⟩)) :
    ((∃ controller, routeControllerAndSelectors eff enter = .ok controller) ↔
        HeadsAgree left.heads right.heads resolver) ↔
      ¬ (HeadsAgree left.visibleHeads right.visibleHeads resolver ∧
        HiddenDisagrees left right resolver) := by
  rw [routeControllerAndSelectors_eq ((emitSource_lowered isOk).equalButLanes isEff)
    isScope isEntry, headsAgree_iff]
  tauto

/-- A choice of role 0 beside a message of role 2. -/
def coveredLeft : Source :=
  .par (.route (.send ⟨⟨0, 0⟩, ⟨0, 1⟩, 1, .wire 0⟩) (.send ⟨⟨0, 0⟩, ⟨0, 1⟩, 2, .wire 0⟩) none)
    (.send ⟨⟨0, 2⟩, ⟨0, 3⟩, 3, .wire 0⟩)

def coveredRight : Source := .send ⟨⟨0, 0⟩, ⟨0, 1⟩, 4, .wire 0⟩

/-- The message of role 2 is a head of this route that the check does not see. -/
def coveredSender : Source := .route coveredLeft coveredRight none

/-- The arena of this source. -/
def coveredArena : EffList where
  events := [⟨0, 1, 1, .wire 0, 0⟩, ⟨0, 1, 2, .wire 0, 0⟩, ⟨2, 3, 3, .wire 0, 0⟩,
    ⟨0, 1, 4, .wire 0, 0⟩]
  markers := [⟨0, 3, ⟨.route, 0⟩, .enter (.route 4), .singlePass⟩,
    ⟨0, 3, ⟨.parallel, 1⟩, .enter (.parallel 2), .singlePass⟩,
    ⟨0, 1, ⟨.route, 2⟩, .enter (.route 2), .singlePass⟩,
    ⟨1, 1, ⟨.route, 2⟩, .exit, .singlePass⟩,
    ⟨1, 2, ⟨.route, 2⟩, .enter .routeArmContinuation, .singlePass⟩,
    ⟨2, 2, ⟨.route, 2⟩, .exit, .singlePass⟩, ⟨2, 2, ⟨.parallel, 1⟩, .split, .singlePass⟩,
    ⟨3, 3, ⟨.parallel, 1⟩, .exit, .singlePass⟩, ⟨3, 3, ⟨.route, 0⟩, .exit, .singlePass⟩,
    ⟨3, 4, ⟨.route, 0⟩, .enter .routeArmContinuation, .singlePass⟩,
    ⟨4, 4, ⟨.route, 0⟩, .exit, .singlePass⟩]
  resolvers := []
  capacity := 15
  eventCapacity := 4
  markerCapacity := 11
  resolverCapacity := 0

theorem coveredSender_emitted : emitSource 15 none coveredSender = .ok (1, coveredArena) := by
  decide +kernel

theorem coveredSender_accepted :
    emitSource 15 none coveredSender = .ok (1, coveredArena) ∧
      ⟨0, 0, .route coveredLeft coveredRight none, .singlePass⟩ ∈
        coveredSender.scopes 0 0 .singlePass ∧
      coveredArena.markers[0]? =
        some (ScopeNode.marker ⟨0, 0, .route coveredLeft coveredRight none, .singlePass⟩) ∧
      routeControllerAndSelectors coveredArena 0 = .ok 0 ∧
      ¬ HeadsAgree coveredLeft.heads coveredRight.heads none := by
  refine ⟨coveredSender_emitted, by decide +kernel, by decide +kernel, by decide +kernel, ?_⟩
  rintro ⟨⟨role, sends⟩, _⟩
  have first := sends ⟨⟨0, 0⟩, ⟨0, 1⟩, 1, .wire 0⟩ (by decide)
  have other := sends ⟨⟨0, 2⟩, ⟨0, 3⟩, 3, .wire 0⟩ (by decide)
  exact absurd (first.trans other.symm) (by decide)

theorem coveredSender_differs :
    ¬ ((∃ controller, routeControllerAndSelectors coveredArena 0 = .ok controller) ↔
      HeadsAgree coveredLeft.heads coveredRight.heads none) := by
  have agrees : HeadsAgree coveredLeft.visibleHeads coveredRight.visibleHeads none :=
    ⟨⟨0, by decide⟩, fun _ => by decide⟩
  have disagrees : HiddenDisagrees coveredLeft coveredRight none :=
    .inl ⟨⟨⟨0, 2⟩, ⟨0, 3⟩, 3, .wire 0⟩, by decide, ⟨⟨0, 0⟩, ⟨0, 1⟩, 1, .wire 0⟩, by decide,
      by decide⟩
  intro same
  exact (routeControllerAndSelectors_accepts_iff 15 1 none coveredSender coveredArena coveredArena
    coveredSender_emitted (EffList.EqualButLanes.refl _) 0 0 coveredLeft coveredRight none
    .singlePass 0 (by decide +kernel) (by decide +kernel)).mp same ⟨agrees, disagrees⟩

end Hibana
