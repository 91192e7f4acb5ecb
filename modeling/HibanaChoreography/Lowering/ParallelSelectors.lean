/-
This file models the check of the parallels of a lowered source,
`validate_parallel_endpoint_selectors` of `global/const_dsl/endpoint_selectors.rs`.

Two events that one role could send at the same time must differ in label or
payload. The check packs sender, label and payload of every event into one key,
sorts the events by their keys once, and looks up every event of a left arm among
the equal keys: one of them must not lie in the right arm. An array of the source
is a map here, which is zero where nothing was written.
-/

import HibanaChoreography.Library.HeapSort
import HibanaChoreography.Lowering.RouteShapes

namespace Hibana

open Outcome ScopeMarkers List

/-! ### The check -/

/-- The outbound selectors of the events. -/
def outboundSelectors (eff : EffList) : Run (Nat → Nat) := do
  let selectors ← (List.range eff.len).mapM fun event =>
    return (EndpointSelector.outbound (← eff.atomAt event)).bits
  return fun event => selectors.getD event 0

/-- The events by their keys, sorted with a heap. -/
def sortedSelectorEvents (keys : Nat → Nat) (len : Nat) : Nat → Nat :=
  HeapSort.sort keys len fun index => if index < len then index else 0

/-- Some event of a range has the key of an event. -/
def rangeHasSelector (outbound sorted : Nat → Nat) (len rightStart rightEnd left : Nat) :
    Run Bool := do
  let low ← lowerBound (fun middle => .ok (outbound (sorted middle) < outbound left)) len 0 len
  let equal := (List.range' low (len - low)).takeWhile fun position =>
    outbound (sorted position) = outbound left
  return equal.any fun position => rightStart ≤ sorted position ∧ sorted position < rightEnd

/-- Some event of the left arm has the key of an event of the right arm. -/
def parallelEndpointSelectorConflicts (outbound sorted : Nat → Nat) (len : Nat)
    (ranges : ArmRanges) : Run Bool :=
  let first :=
    if ranges.rightStart < ranges.leftStart then ranges.leftStart else ranges.rightStart
  -- Identical inbound evidence can only occur in the intersection of the ranges.
  if first < ranges.leftEnd ∧ first < ranges.rightEnd ∧ first < len ∧
      first < EndpointSelector.compactEventIdentityCapacity then .ok true
  else
    (List.range' ranges.leftStart (min ranges.leftEnd len - ranges.leftStart)).anyM
      (rangeHasSelector outbound sorted len ranges.rightStart ranges.rightEnd)

/-- The check of the marker at an index, which passes what does not enter a parallel. -/
def validateParallelMarker (eff : EffList) (outbound sorted : Nat → Nat) (index : Nat) :
    Run Bool := do
  let marker ← markerAt eff.markers index
  if marker.event.isPrimaryEnter ∧ marker.scopeId.kind = .parallel then
    match parallelArmRangesFromEnter eff.markers index with
    | none => return false
    | some ranges => return !(← parallelEndpointSelectorConflicts outbound sorted eff.len ranges)
  else return true

def validateParallelEndpointSelectors (eff : EffList) : Run Bool := do
  let outbound ← outboundSelectors eff
  let sorted := sortedSelectorEvents outbound eff.len
  (List.range eff.markers.length).allM (validateParallelMarker eff outbound sorted)

/-! ### The sorted events -/

section

variable (keys : Nat → Nat) (len : Nat)

theorem sortedSelectorEvents_sorted {first second : Nat} (le : first ≤ second)
    (inside : second < len) :
    keys (sortedSelectorEvents keys len first) ≤ keys (sortedSelectorEvents keys len second) :=
  (HeapSort.sort_spec keys len _).1 first second le inside

/-- Exactly the events below the length are sorted. -/
theorem sortedSelectorEvents_lt {position : Nat} (inside : position < len) :
    sortedSelectorEvents keys len position < len := by
  obtain ⟨origin, originInside, isOrigin⟩ := (HeapSort.sort_spec keys len _).2.exists_lt inside
  rw [sortedSelectorEvents, isOrigin, if_pos originInside]
  exact originInside

theorem exists_sortedSelectorEvents {event : Nat} (inside : event < len) :
    ∃ position, position < len ∧ sortedSelectorEvents keys len position = event := by
  obtain ⟨position, positionInside, isEvent⟩ :=
    (HeapSort.sort_spec keys len fun index => if index < len then index else 0).2
      |>.exists_lt_of_origin inside
  exact ⟨position, positionInside, isEvent.trans (if_pos inside)⟩

/-- The search for a key returns, and the positions behind it that have the key are all of them. -/
theorem lowerBound_sortedSelectorEvents (key : Nat) :
    ∃ low, lowerBound (fun middle => .ok (keys (sortedSelectorEvents keys len middle) < key))
        len 0 len = .ok low ∧
      ∀ position, position ∈ ((List.range' low (len - low)).takeWhile fun position =>
          decide (keys (sortedSelectorEvents keys len position) = key)) ↔
        position < len ∧ keys (sortedSelectorEvents keys len position) = key := by
  obtain ⟨low, isLow, _, inside, smaller, notSmaller⟩ := @lowerBound_spec
    (fun middle => .ok (keys (sortedSelectorEvents keys len middle) < key))
    (fun middle => decide (keys (sortedSelectorEvents keys len middle) < key)) len 0 len
    (Nat.le_refl (len - 0)) (Nat.zero_le len) (fun _ _ _ => rfl)
    (fun first second _ le below passes => decide_eq_true
      ((sortedSelectorEvents_sorted keys len le below).trans_lt (of_decide_eq_true passes)))
  refine ⟨low, isLow, fun position => ?_⟩
  rw [mem_takeWhile_range', Nat.add_sub_cancel' inside]
  constructor
  · rintro ⟨fromLow, below, equal⟩
    exact ⟨below, of_decide_eq_true (equal position fromLow le_rfl)⟩
  · rintro ⟨below, isKey⟩
    have fromLow : low ≤ position := by
      by_contra before
      exact absurd isKey (of_decide_eq_true (smaller position (Nat.zero_le _) (by omega))).ne
    refine ⟨fromLow, below, fun earlier isFrom isBefore => decide_eq_true (le_antisymm ?_ ?_)⟩
    · exact isKey ▸ sortedSelectorEvents_sorted keys len isBefore below
    · exact Nat.not_lt.mp
        (of_decide_eq_false (notSmaller earlier isFrom (isBefore.trans_lt below)))

/-- The lookup of an event finds exactly the events of the range with its key. -/
theorem rangeHasSelector_spec {rightEnd : Nat} (inside : rightEnd ≤ len) (rightStart left : Nat) :
    ∃ found, rangeHasSelector keys (sortedSelectorEvents keys len) len rightStart rightEnd left =
        .ok found ∧
      (found = true ↔ ∃ right, rightStart ≤ right ∧ right < rightEnd ∧ keys right = keys left) := by
  obtain ⟨low, isLow, isEqual⟩ := lowerBound_sortedSelectorEvents keys len (keys left)
  unfold rangeHasSelector
  rw [isLow, Run.bind_ok]
  refine ⟨_, rfl, ?_⟩
  rw [any_eq_true]
  constructor
  · rintro ⟨position, isPosition, inRight⟩
    have bounds := of_decide_eq_true inRight
    exact ⟨_, bounds.1, bounds.2, ((isEqual position).mp isPosition).2⟩
  · rintro ⟨right, fromStart, beforeEnd, isKey⟩
    obtain ⟨position, isInside, rfl⟩ :=
      exists_sortedSelectorEvents keys len (beforeEnd.trans_le inside)
    exact ⟨position, (isEqual position).mpr ⟨isInside, isKey⟩,
      decide_eq_true ⟨fromStart, beforeEnd⟩⟩

/-- Two arms conflict exactly when an event of the one has the key of an event of the other. -/
theorem parallelEndpointSelectorConflicts_spec {ranges : ArmRanges}
    (apart : ranges.leftEnd ≤ ranges.rightStart) (leftInside : ranges.leftEnd ≤ len)
    (rightInside : ranges.rightEnd ≤ len) :
    ∃ found, parallelEndpointSelectorConflicts keys (sortedSelectorEvents keys len) len ranges =
        .ok found ∧
      (found = true ↔ ∃ left right, (ranges.leftStart ≤ left ∧ left < ranges.leftEnd) ∧
        ranges.rightStart ≤ right ∧ right < ranges.rightEnd ∧ keys right = keys left) := by
  choose answer isAnswer answers using rangeHasSelector_spec keys len rightInside ranges.rightStart
  have apart : ¬ ((if ranges.rightStart < ranges.leftStart then ranges.leftStart
      else ranges.rightStart) < ranges.leftEnd) := by
    split <;> omega
  unfold parallelEndpointSelectorConflicts
  dsimp only
  rw [if_neg fun overlap => apart overlap.1, Nat.min_eq_left leftInside,
    Run.anyM_eq_ok answer fun left _ => isAnswer left]
  refine ⟨_, rfl, ?_⟩
  rw [any_eq_true]
  refine exists_congr fun left => ?_
  rw [exists_and_left, answers left, mem_range'_1]
  exact and_congr_left' (by omega)

end

/-! ### The keys of a lowered source -/

variable {eff : EffList} {root : Source}

theorem outboundSelectors_spec (lowered : eff.Lowered root) :
    ∃ keys, outboundSelectors eff = .ok keys ∧
      ∀ first second left right, root.messageAt first = some left →
        root.messageAt second = some right → (keys first = keys second ↔
          left.selector = right.selector) := by
  have isOk : ∀ event ∈ List.range eff.len,
      (do return (EndpointSelector.outbound (← eff.atomAt event)).bits : Run Nat) =
        .ok ((eff.events[event]?.map fun atom =>
          (EndpointSelector.outbound atom).bits).getD 0) := by
    intro event inside
    have isAtom := getElem?_eq_getElem (mem_range.mp inside)
    rw [EffList.atomAt, isAtom]
    rfl
  refine ⟨_, by rw [outboundSelectors, Run.mapM_eq_map isOk]; rfl, ?_⟩
  have keyOf : ∀ event message, root.messageAt event = some message → ∃ atom,
      atom.Lowers message ∧ ((List.range eff.len).map fun event =>
        (eff.events[event]?.map fun atom => (EndpointSelector.outbound atom).bits).getD 0).getD
          event 0 = (EndpointSelector.outbound atom).bits := by
    intro event message isMessage
    obtain ⟨atom, isAtom, lowers⟩ := lowered.events event message isMessage
    refine ⟨atom, lowers, ?_⟩
    have inside : event < eff.len := (List.getElem?_eq_some_iff.mp isAtom).1
    rw [getD_eq_getElem?_getD, getElem?_map, getElem?_range inside,
      Option.map_some, Option.getD_some, isAtom]
    rfl
  intro first second left right isLeft isRight
  obtain ⟨firstAtom, firstLowers, isFirst⟩ := keyOf first left isLeft
  obtain ⟨secondAtom, secondLowers, isSecond⟩ := keyOf second right isRight
  rw [isFirst, isSecond, ← firstLowers.outbound_eq_iff secondLowers]
  exact ⟨fun same => by
    cases bits : EndpointSelector.outbound firstAtom
    cases others : EndpointSelector.outbound secondAtom
    rw [bits, others] at same
    exact congrArg _ same, congrArg EndpointSelector.bits⟩

/-! ### The parallels of a source -/

/-- A message of the left arm and one of the right arm have one sender, label and payload. -/
def SelectorsClash (left right : Source) : Prop :=
  ∃ first ∈ left.messages, ∃ second ∈ right.messages, first.selector = second.selector

variable {keys : Nat → Nat}

/-- Equal keys in the ranges of two arms are messages of the arms that clash. -/
theorem selectorsClash_iff {root left right : Source} {start ordinal : Nat} {reentry : ReentryMark}
    {front back : List ScopeNode}
    (placed : Placed root (.par left right) start ordinal reentry front back)
    (isKey : ∀ first second leftMessage rightMessage, root.messageAt first = some leftMessage →
      root.messageAt second = some rightMessage →
      (keys first = keys second ↔ leftMessage.selector = rightMessage.selector)) :
    (∃ first second, (start ≤ first ∧ first < start + left.eventCount) ∧
        start + left.eventCount ≤ second ∧ second < start + left.eventCount + right.eventCount ∧
        keys second = keys first) ↔ SelectorsClash left right := by
  obtain ⟨leftPlaced, rightPlaced⟩ := placed.terms [_] rfl rfl rfl
    (forall_mem_singleton.mpr ⟨rfl, rfl⟩)
  constructor
  · rintro ⟨first, second, ⟨fromStart, beforeSplit⟩, fromSplit, beforeStop, same⟩
    obtain ⟨leftMessage, isLeft⟩ := left.exists_messageAt (show first - start < _ by omega)
    obtain ⟨rightMessage, isRight⟩ :=
      right.exists_messageAt (show second - (start + left.eventCount) < _ by omega)
    have atFirst := leftPlaced.messages _ _ isLeft
    have atSecond := rightPlaced.messages _ _ isRight
    rw [Nat.add_sub_cancel' fromStart] at atFirst
    rw [Nat.add_sub_cancel' fromSplit] at atSecond
    rw [← Source.getElem?_messages] at isLeft isRight
    exact ⟨leftMessage, mem_of_getElem? isLeft, rightMessage, mem_of_getElem? isRight,
      (isKey _ _ _ _ atFirst atSecond).mp same.symm⟩
  · rintro ⟨leftMessage, inLeft, rightMessage, inRight, same⟩
    obtain ⟨first, isLeft⟩ := mem_iff_getElem?.mp inLeft
    obtain ⟨second, isRight⟩ := mem_iff_getElem?.mp inRight
    rw [Source.getElem?_messages] at isLeft isRight
    have firstInside := Source.messageAt_lt isLeft
    have secondInside := Source.messageAt_lt isRight
    exact ⟨start + first, start + left.eventCount + second, by omega, by omega, by omega,
      ((isKey _ _ _ _ (leftPlaced.messages _ _ isLeft)
        (rightPlaced.messages _ _ isRight)).mpr same).symm⟩

/-- The entry of a scope passes exactly when the scope is not a parallel with a clash. -/
theorem validateParallelMarker_node (lowered : eff.Lowered root)
    (isKey : ∀ first second leftMessage rightMessage, root.messageAt first = some leftMessage →
      root.messageAt second = some rightMessage →
      (keys first = keys second ↔ leftMessage.selector = rightMessage.selector)) {node : ScopeNode}
    (isScope : node ∈ root.scopes 0 0 .singlePass) {index : Nat}
    (isMarker : eff.markers[index]? = some node.marker) :
    ∃ passed, validateParallelMarker eff keys (sortedSelectorEvents keys eff.len) index =
        .ok passed ∧
      (passed = true ↔ ∀ left right, node.composite = .parallel left right →
        ¬ SelectorsClash left right) := by
  unfold validateParallelMarker
  rw [markerAt, parallelArmRangesFromEnter, isMarker, Run.bind_ok, node.scopeId_marker]
  cases composite : node.composite with
  | route left right resolver | roll body =>
    exact ⟨true, if_neg (by simp [Composite.kind]), iff_of_true rfl (by simp)⟩
  | parallel left right =>
    obtain ⟨before, after, isCut⟩ := append_of_mem isScope
    obtain ⟨rest, placed⟩ := (Placed.self root).scope isCut
    rw [composite, Composite.source] at placed
    have inside := (Source.scopes_inside isScope).2
    rw [ScopeNode.stop, composite, Composite.source, Source.eventCount, Nat.zero_add,
      ← lowered.length] at inside
    obtain ⟨found, isFound, clashes⟩ := @parallelEndpointSelectorConflicts_spec keys eff.len
      (node.armRanges left right) le_rfl
      (by simp only [ScopeNode.armRanges]; omega) (by simp only [ScopeNode.armRanges]; omega)
    refine ⟨!found, ?_, ?_⟩
    · rw [if_pos ⟨node.isPrimaryEnter_marker, rfl⟩, Option.bind_some,
        ScopeNode.parallelArmRanges_marker (by rw [composite]; rfl) (by rw [composite]; rfl)]
      dsimp only
      rw [isFound]
      rfl
    · rw [Bool.not_eq_true', ← Bool.not_eq_true, clashes.trans (selectorsClash_iff placed isKey)]
      simp

/-- The check of the parallels of a lowered source, whatever lanes its events have, returns, and
it accepts exactly when no parallel at any depth has a message in its left arm and one in its
right arm with the same sender, label and payload. -/
theorem validateParallelEndpointSelectors_accepts_iff (capacity span : Nat)
    (actors : Option ActorImage) (source : Source) (emitted eff : EffList)
    (isOk : emitSource capacity actors source = .ok (span, emitted))
    (isEff : emitted.EqualButLanes eff) :
    ∃ accepted, validateParallelEndpointSelectors eff = .ok accepted ∧
      (accepted = true ↔ ∀ node ∈ source.scopes 0 0 .singlePass, ∀ left right,
        node.composite = .parallel left right → ¬ SelectorsClash left right) := by
  have lowered := (emitSource_lowered isOk).equalButLanes isEff
  obtain ⟨keys, isKeys, isKey⟩ := outboundSelectors_spec lowered
  have markers : ∀ index ∈ List.range eff.markers.length, ∃ passed,
      validateParallelMarker eff keys (sortedSelectorEvents keys eff.len) index = .ok passed ∧
        (passed = true ↔ ∀ node ∈ source.scopes 0 0 .singlePass,
          some node.marker = eff.markers[index]? → ∀ left right,
            node.composite = .parallel left right → ¬ SelectorsClash left right) := by
    intro index mem
    have isMarker := getElem?_eq_getElem (mem_range.mp mem)
    simp only [isMarker, Option.some.injEq]
    refine lowered.visit_spec (getElem_mem _) (fun node isScope isNode =>
      validateParallelMarker_node lowered isKey isScope (isNode ▸ isMarker)) fun notEntry => ?_
    rw [validateParallelMarker, markerAt, isMarker]
    exact if_neg (by simp [notEntry])
  obtain ⟨accepted, isAccepted, accepts⟩ := Run.allM_spec markers
  refine ⟨accepted, by rw [validateParallelEndpointSelectors, isKeys]; exact isAccepted,
    accepts.trans ⟨fun all node isScope => ?_, fun all _ _ node isScope _ => all node isScope⟩⟩
  obtain ⟨index, isIndex⟩ := mem_iff_getElem?.mp (lowered.marker_mem isScope)
  exact all index (mem_range.mpr (List.getElem?_eq_some_iff.mp isIndex).1) node isScope
    isIndex.symm

/-- One role sends the same message in both arms of a parallel inside a route. -/
def clashingArms : Source :=
  .route (.par (.send ⟨⟨0, 0⟩, ⟨0, 1⟩, 1, .wire 7⟩) (.send ⟨⟨0, 0⟩, ⟨0, 2⟩, 1, .wire 7⟩))
    (.send ⟨⟨0, 0⟩, ⟨0, 1⟩, 2, .wire 7⟩) none

/-- The arena of this source. -/
def clashingArena : EffList where
  events := [⟨0, 1, 1, .wire 7, 0⟩, ⟨0, 2, 1, .wire 7, 1⟩, ⟨0, 1, 2, .wire 7, 0⟩]
  markers := [⟨0, 2, ⟨.route, 0⟩, .enter (.route 3), .singlePass⟩,
    ⟨0, 2, ⟨.parallel, 1⟩, .enter (.parallel 1), .singlePass⟩,
    ⟨1, 1, ⟨.parallel, 1⟩, .split, .singlePass⟩, ⟨2, 2, ⟨.parallel, 1⟩, .exit, .singlePass⟩,
    ⟨2, 2, ⟨.route, 0⟩, .exit, .singlePass⟩,
    ⟨2, 3, ⟨.route, 0⟩, .enter .routeArmContinuation, .singlePass⟩,
    ⟨3, 3, ⟨.route, 0⟩, .exit, .singlePass⟩]
  resolvers := []
  capacity := 10
  eventCapacity := 3
  markerCapacity := 7
  resolverCapacity := 0

theorem clashingArms_rejected : validateParallelEndpointSelectors clashingArena = .ok false := by
  obtain ⟨accepted, isAccepted, accepts⟩ := validateParallelEndpointSelectors_accepts_iff 10 2 none
    clashingArms clashingArena clashingArena (by decide +kernel) (EffList.EqualButLanes.refl _)
  cases accepted with
  | false => exact isAccepted
  | true =>
    refine absurd ?_ (accepts.mp rfl _ (mem_cons_of_mem _ mem_cons_self) _ _ rfl)
    exact ⟨_, mem_cons_self, _, mem_cons_self, rfl⟩

end Hibana
