/-
This file says what lowering leaves in the arena.

The events are the messages of the source in source order. The primary entries
among the scope markers are the scopes of the source in preorder, and the
markers are ordered by offset. The colouring of parallel arms changes lanes and
nothing else.
-/

import HibanaChoreography.Lowering.Emit

namespace Hibana

open Outcome List

/-! ### The scopes of a source -/

/-- A node of the source that opens a scope. -/
inductive Composite where
  | route (left right : Source) (resolver : Option UInt16)
  | parallel (left right : Source)
  | roll (body : Source)
  deriving DecidableEq, Repr

/-- A scope of the source: its preorder ordinal, the position of its first event, its node, and
whether it lies inside a roll. -/
structure ScopeNode where
  ordinal : Nat
  start : Nat
  composite : Composite
  reentry : ReentryMark
  deriving DecidableEq, Repr

namespace Source

def scopeCount : Source → Nat
  | send _ => 0
  | seq left right => left.scopeCount + right.scopeCount
  | par left right | route left right _ => left.scopeCount + right.scopeCount + 1
  | roll body => body.scopeCount + 1

/-- The scopes of a source in preorder. -/
def scopes : Source → Nat → Nat → ReentryMark → List ScopeNode
  | send _, _, _, _ => []
  | seq left right, start, ordinal, reentry =>
    left.scopes start ordinal reentry ++
      right.scopes (start + left.eventCount) (ordinal + left.scopeCount) reentry
  | par left right, start, ordinal, reentry =>
    ⟨ordinal, start, .parallel left right, reentry⟩ ::
      (left.scopes start (ordinal + 1) reentry ++
        right.scopes (start + left.eventCount) (ordinal + 1 + left.scopeCount) reentry)
  | route left right resolver, start, ordinal, reentry =>
    ⟨ordinal, start, .route left right resolver, reentry⟩ ::
      (left.scopes start (ordinal + 1) reentry ++
        right.scopes (start + left.eventCount) (ordinal + 1 + left.scopeCount) reentry)
  | roll body, start, ordinal, reentry =>
    ⟨ordinal, start, .roll body, reentry⟩ :: body.scopes start (ordinal + 1) .reentrant

end Source

/-- The entry marker of a scope. -/
def ScopeNode.marker (node : ScopeNode) : ScopeMarker :=
  match node.composite with
  | .route left right _ =>
    ⟨node.start, node.start + left.eventCount, ⟨.route, node.ordinal⟩,
      .enter (.route (node.start + left.eventCount + right.eventCount)), node.reentry⟩
  | .parallel left right =>
    ⟨node.start, node.start + left.eventCount + right.eventCount, ⟨.parallel, node.ordinal⟩,
      .enter (.parallel (node.start + left.eventCount)), .singlePass⟩
  | .roll body =>
    ⟨node.start, node.start + body.eventCount, ⟨.roll, node.ordinal⟩, .enter .roll, .singlePass⟩

namespace ScopeNode

theorem marker_offset (node : ScopeNode) : node.marker.offset = node.start := by
  unfold marker
  split <;> rfl

theorem marker_ordinal (node : ScopeNode) : node.marker.scopeId.ordinal = node.ordinal := by
  unfold marker
  split <;> rfl

theorem isPrimaryEnter_marker (node : ScopeNode) : node.marker.event.isPrimaryEnter = true := by
  unfold marker
  split <;> rfl

theorem isEnter_marker (node : ScopeNode) : node.marker.event.isEnter = true := by
  unfold marker
  split <;> rfl

end ScopeNode

/-! ### Inserting a marker -/

variable {marker : ScopeMarker}

namespace EffList

/-- The markers with a new one in its place. -/
def insertMarker (marker : ScopeMarker) (markers : List ScopeMarker) : List ScopeMarker :=
  (placeMarker marker markers.reverse).reverse

theorem insertMarker_append_singleton (marker : ScopeMarker) (markers : List ScopeMarker)
    (last : ScopeMarker) :
    insertMarker marker (markers ++ [last]) =
      if passes marker last then insertMarker marker markers ++ [last]
      else markers ++ [last] ++ [marker] := by
  unfold insertMarker
  rw [reverse_append, reverse_singleton, singleton_append, placeMarker]
  split
  · rw [reverse_cons]
  · rw [reverse_cons, reverse_cons, reverse_reverse]

/-- A marker that passes nothing of a prefix lands behind it, in front of markers that it passes
and behind one that it does not pass. -/
theorem insertMarker_append {kept : List ScopeMarker}
    (stays : ∀ previous ∈ kept, passes marker previous = false) (markers : List ScopeMarker) :
    ∃ front back, markers = front ++ back ∧
      insertMarker marker (kept ++ markers) = kept ++ (front ++ marker :: back) ∧
      (∀ later ∈ back, passes marker later = true) ∧
      ∀ previous ∈ front.getLast?, passes marker previous = false := by
  induction markers using List.reverseRecOn with
  | nil =>
    refine ⟨[], [], rfl, ?_, nofun, nofun⟩
    rw [append_nil]
    cases kept using List.reverseRecOn with
    | nil => rfl
    | append_singleton kept last =>
      have lastStays := stays last (mem_append_right _ (mem_singleton_self _))
      rw [insertMarker_append_singleton, lastStays, if_neg Bool.false_ne_true, nil_append]
  | append_singleton markers last hyp =>
    rw [← append_assoc, insertMarker_append_singleton]
    by_cases isPassed : passes marker last = true
    · obtain ⟨front, back, rfl, inserted, passed, stopped⟩ := hyp
      refine ⟨front, back ++ [last], by rw [append_assoc], ?_, ?_, stopped⟩
      · rw [if_pos isPassed, inserted]
        simp only [append_assoc, cons_append]
      · intro later mem
        rcases mem_append.mp mem with inBack | isLast
        · exact passed later inBack
        · rw [mem_singleton.mp isLast]
          exact isPassed
    · refine ⟨markers ++ [last], [], (append_nil _).symm, ?_, nofun, ?_⟩
      · rw [if_neg isPassed]
        simp only [append_assoc]
      · intro previous isPrevious
        rw [getLast?_concat] at isPrevious
        cases isPrevious
        exact Bool.eq_false_iff.mpr isPassed

theorem offset_le_of_passes {marker later : ScopeMarker} (isPassed : passes marker later = true) :
    marker.offset ≤ later.offset := by
  simp only [passes, Bool.or_eq_true, Bool.and_eq_true, decide_eq_true_eq] at isPassed
  omega

variable {marker previous : ScopeMarker}

theorem offset_le_of_not_passes (stays : passes marker previous = false) :
    previous.offset ≤ marker.offset := by
  by_contra further
  simp only [passes, Bool.or_eq_false_iff, decide_eq_false_iff_not] at stays
  omega

theorem not_passes_of_lt (before : previous.offset < marker.offset) :
    passes marker previous = false := by
  rw [Bool.eq_false_iff]
  intro isPassed
  have ordered := offset_le_of_passes isPassed
  omega

end EffList

/-! ### The markers of a subtree -/

/-- Markers behind which lowering continues at a position: the ones that are there end scopes. -/
structure MarkersBehind (markers : List ScopeMarker) (start : Nat) : Prop where
  sorted : markers.Pairwise fun first second => first.offset ≤ second.offset
  upper : ∀ marker ∈ markers, marker.offset ≤ start
  atStart : ∀ marker ∈ markers, marker.offset = start → marker.event = .exit

/-- A marker of a range: at its start scopes from an ordinal on are entered, at its end they are
left. -/
structure ScopeMarker.Within (marker : ScopeMarker) (start stop ordinal : Nat) : Prop where
  lower : start ≤ marker.offset
  upper : marker.offset ≤ stop
  atStart : marker.offset = start →
    marker.event.isEnter = true ∧ ordinal ≤ marker.scopeId.ordinal
  atStop : marker.offset = stop → marker.event = .exit

/-- The markers that lowering a subtree adds, in order, with the entries of its scopes. -/
structure AddedMarkers (added : List ScopeMarker) (start stop ordinal : Nat)
    (nodes : List ScopeNode) : Prop where
  sorted : added.Pairwise fun first second => first.offset ≤ second.offset
  within : ∀ marker ∈ added, marker.Within start stop ordinal
  primary : added.filter (·.event.isPrimaryEnter) = nodes.map ScopeNode.marker

variable {node : ScopeNode}

namespace AddedMarkers

variable {added : List ScopeMarker} {start stop ordinal : Nat} {nodes : List ScopeNode}

theorem nil (start stop ordinal : Nat) : AddedMarkers [] start stop ordinal [] where
  sorted := List.Pairwise.nil
  within := nofun
  primary := rfl

theorem append {middle rightOrdinal : Nat} {left right : List ScopeMarker}
    {leftNodes rightNodes : List ScopeNode}
    (isLeft : AddedMarkers left start middle ordinal leftNodes)
    (isRight : AddedMarkers right middle stop rightOrdinal rightNodes) (low : start < middle)
    (high : middle < stop) : AddedMarkers (left ++ right) start stop ordinal
      (leftNodes ++ rightNodes) where
  sorted := pairwise_append.mpr ⟨isLeft.sorted, isRight.sorted, fun first inLeft second
    inRight => (isLeft.within first inLeft).upper.trans (isRight.within second inRight).lower⟩
  within := by
    intro marker mem
    rcases mem_append.mp mem with inLeft | inRight
    · have within := isLeft.within marker inLeft
      have bound := within.upper
      exact ⟨within.lower, by omega, within.atStart, by omega⟩
    · have within := isRight.within marker inRight
      have bound := within.lower
      exact ⟨by omega, within.upper, by omega, within.atStop⟩
  primary := by rw [filter_append, isLeft.primary, isRight.primary, map_append]

/-- The entry of a scope goes in front of everything inside it. -/
theorem cons_enter (isAdded : AddedMarkers added node.start stop (node.ordinal + 1) nodes)
    (low : node.start < stop) :
    AddedMarkers (node.marker :: added) node.start stop node.ordinal (node :: nodes) where
  sorted := pairwise_cons.mpr ⟨fun later mem => by
    rw [node.marker_offset]
    exact (isAdded.within later mem).lower, isAdded.sorted⟩
  within := by
    intro marker mem
    rcases mem_cons.mp mem with rfl | inAdded
    · have offset := node.marker_offset
      exact ⟨offset.ge, by omega, fun _ => ⟨node.isEnter_marker, node.marker_ordinal.ge⟩, by omega⟩
    · have within := isAdded.within marker inAdded
      exact { within with atStart := fun isStart =>
        (within.atStart isStart).imp_right Nat.le_of_succ_le }
  primary := by
    rw [filter_cons, if_pos node.isPrimaryEnter_marker, isAdded.primary, map_cons]

/-- A boundary marker inside the range, or an exit at its end, changes no entry. -/
theorem insert {front back : List ScopeMarker}
    (isAdded : AddedMarkers (front ++ back) start stop ordinal nodes)
    (passed : ∀ later ∈ back, EffList.passes marker later = true)
    (stopped : ∀ previous ∈ front.getLast?, EffList.passes marker previous = false)
    (notPrimary : marker.event.isPrimaryEnter = false) (low : start < marker.offset)
    (high : marker.offset ≤ stop) (atEnd : marker.offset = stop → marker.event = .exit) :
    AddedMarkers (front ++ marker :: back) start stop ordinal nodes := by
  obtain ⟨frontSorted, backSorted, across⟩ := pairwise_append.mp isAdded.sorted

  have frontBelow : ∀ previous ∈ front, previous.offset ≤ marker.offset := by
    intro previous mem
    cases front using List.reverseRecOn with
    | nil => cases mem
    | append_singleton front last =>
      have lastBelow := EffList.offset_le_of_not_passes (stopped last (getLast?_concat))
      rcases mem_append.mp mem with inFront | isLast
      · exact ((pairwise_append.mp frontSorted).2.2 previous inFront last
          (mem_singleton_self _)).trans lastBelow
      · rw [mem_singleton.mp isLast]
        exact lastBelow
  refine ⟨?_, ?_, ?_⟩
  · refine pairwise_append.mpr ⟨frontSorted, pairwise_cons.mpr ⟨fun later mem =>
      EffList.offset_le_of_passes (passed later mem), backSorted⟩, ?_⟩
    intro first inFront second mem
    rcases mem_cons.mp mem with rfl | inBack
    · exact frontBelow first inFront
    · exact across first inFront second inBack
  · intro other mem
    simp only [mem_append, mem_cons, or_left_comm (b := other = marker)] at mem
    rcases mem with rfl | inAdded
    · exact ⟨Nat.le_of_lt low, high, by omega, atEnd⟩
    · exact isAdded.within other (mem_append.mpr inAdded)
  · rw [filter_append, filter_cons, if_neg (by simp [notPrimary]), ← filter_append,
      isAdded.primary]

end AddedMarkers

/-! ### Leaving the markers of a scope -/

variable {event : ScopeEvent} {eff after : EffList} {reentry : ReentryMark}

theorem ScopeMarker.eq_of_new {offset segmentEnd : Nat} {scopeId : ScopeId}
    (isOk : ScopeMarker.new offset segmentEnd scopeId event reentry = .ok marker) :
    marker = ⟨offset, segmentEnd, scopeId, event, reentry⟩ := by
  unfold ScopeMarker.new at isOk
  repeat' split at isOk
  all_goals cases isOk
  all_goals rfl

theorem ScopeEvent.eq_of_routeEnter {rightEnd : Nat}
    (isOk : ScopeEvent.routeEnter rightEnd = .ok event) : event = .enter (.route rightEnd) := by
  unfold ScopeEvent.routeEnter at isOk
  split at isOk
  · cases isOk
  · exact (Except.ok.inj isOk).symm

theorem ScopeEvent.eq_of_parallelEnter {split : Nat}
    (isOk : ScopeEvent.parallelEnter split = .ok event) : event = .enter (.parallel split) := by
  unfold ScopeEvent.parallelEnter at isOk
  split at isOk
  · cases isOk
  · exact (Except.ok.inj isOk).symm

variable {left right : Source}

namespace EffList

variable {eff after before : EffList}

theorem eq_of_insertScopeMarker (isOk : eff.insertScopeMarker marker = .ok after) :
    after = { eff with markers := insertMarker marker eff.markers } := by
  unfold insertScopeMarker at isOk
  split at isOk
  · cases isOk
  · exact (Except.ok.inj isOk).symm

variable {kept : List ScopeMarker} {start stop ordinal : Nat} {nodes : List ScopeNode}

/-- The arena has, behind the kept markers, the markers of these scopes. -/
def Holds (kept : List ScopeMarker) (start stop ordinal : Nat) (nodes : List ScopeNode)
    (before after : EffList) : Prop :=
  ∃ added, after = { before with markers := kept ++ added } ∧
    AddedMarkers added start stop ordinal nodes

theorem Holds.boundary (behind : MarkersBehind kept start)
    (holds : Holds kept start stop ordinal nodes before eff) {offset segmentEnd : Nat}
    {scopeId : ScopeId}
    (isMarker : ScopeMarker.new offset segmentEnd scopeId event reentry = .ok marker)
    (isOk : eff.insertScopeMarker marker = .ok after) (notPrimary : event.isPrimaryEnter = false)
    (low : start < offset) (high : offset ≤ stop) (atEnd : offset = stop → event = .exit) :
    Holds kept start stop ordinal nodes before after := by
  obtain rfl := ScopeMarker.eq_of_new isMarker
  obtain ⟨added, rfl, isAdded⟩ := holds
  have stays : ∀ previous ∈ kept,
      passes ⟨offset, segmentEnd, scopeId, event, reentry⟩ previous = false := fun previous mem =>
    not_passes_of_lt (Nat.lt_of_le_of_lt (behind.upper previous mem) low)
  obtain ⟨front, back, rfl, inserted, passed, stopped⟩ := insertMarker_append stays added
  refine ⟨_, ?_, isAdded.insert passed stopped notPrimary low high atEnd⟩
  rw [eq_of_insertScopeMarker isOk, inserted]

theorem Holds.enter (node : ScopeNode) (behind : MarkersBehind kept node.start)
    (holds : Holds kept node.start stop (node.ordinal + 1) nodes before eff)
    (isOk : eff.insertScopeMarker node.marker = .ok after) (low : node.start < stop) :
    Holds kept node.start stop node.ordinal (node :: nodes) before after := by
  obtain ⟨added, rfl, isAdded⟩ := holds
  have offset := node.marker_offset
  have stays : ∀ previous ∈ kept, passes node.marker previous = false := by
    intro previous mem
    rcases Nat.lt_or_ge previous.offset node.marker.offset with before | notBefore
    · exact not_passes_of_lt before
    · have bound := behind.upper previous mem
      have isExit := behind.atStart previous mem (by omega)
      have same : ¬ node.marker.offset < previous.offset := by omega
      simp [passes, isExit, same, ScopeEvent.isEnter]
  have allPass : ∀ later ∈ added, passes node.marker later = true := by
    intro later mem
    have lower := (isAdded.within later mem).lower
    rcases Nat.lt_or_ge node.start later.offset with further | notFurther
    · simp [passes, offset, further]
    · obtain ⟨entered, above⟩ := (isAdded.within later mem).atStart (by omega)
      have sameOffset : later.offset = node.start := by omega
      simp [passes, offset, sameOffset, node.isEnter_marker, entered, node.marker_ordinal,
        Nat.lt_of_succ_le above]
  obtain ⟨front, back, split, inserted, _, stopped⟩ := insertMarker_append stays added
  -- Everything that was added lies inside the scope, so nothing stops its entry.
  obtain rfl : front = [] := by
    cases front using List.reverseRecOn with
    | nil => rfl
    | append_singleton front last =>
      have stays := stopped last getLast?_concat
      rw [allPass last (by rw [split]; simp)] at stays
      cases stays
  rw [nil_append] at split inserted
  refine ⟨node.marker :: added, ?_, isAdded.cons_enter low⟩
  rw [eq_of_insertScopeMarker isOk, inserted, split]

theorem pushRouteScope_holds (resolver : Option UInt16) (behind : MarkersBehind kept start)
    (holds : Holds kept start (start + left.eventCount + right.eventCount) (ordinal + 1) nodes
      before eff)
    (isOk : eff.pushRouteScope ⟨.route, ordinal⟩ start (start + left.eventCount)
      (start + left.eventCount + right.eventCount) reentry = .ok after) :
    Holds kept start (start + left.eventCount + right.eventCount) ordinal
      (⟨ordinal, start, .route left right resolver, reentry⟩ :: nodes) before after := by
  have leftPos := left.eventCount_pos
  have rightPos := right.eventCount_pos
  unfold pushRouteScope at isOk
  split at isOk
  · cases isOk
  · obtain ⟨event, isEvent, isOk⟩ := Run.of_bind isOk
    obtain ⟨enter, isEnter, isOk⟩ := Run.of_bind isOk
    obtain ⟨first, isFirst, isOk⟩ := Run.of_bind isOk
    obtain ⟨leave, isLeave, isOk⟩ := Run.of_bind isOk
    obtain ⟨second, isSecond, isOk⟩ := Run.of_bind isOk
    obtain ⟨resume, isResume, isOk⟩ := Run.of_bind isOk
    obtain ⟨third, isThird, isOk⟩ := Run.of_bind isOk
    obtain ⟨last, isLast, isExit⟩ := Run.of_bind isOk
    obtain rfl := ScopeEvent.eq_of_routeEnter isEvent
    obtain rfl := ScopeMarker.eq_of_new isEnter
    have entered := Holds.enter ⟨ordinal, start, .route left right resolver, reentry⟩ behind holds
      isFirst (by dsimp only; omega)
    have left := entered.boundary behind isLeave isSecond rfl (by omega) (by omega) fun _ => rfl
    have resumed := left.boundary behind isResume isThird rfl (by omega) (by omega) (by omega)
    exact resumed.boundary behind isLast isExit rfl (by omega) (by omega) fun _ => rfl

theorem pushParallelScope_holds (reentry : ReentryMark) (behind : MarkersBehind kept start)
    (holds : Holds kept start (start + left.eventCount + right.eventCount) (ordinal + 1) nodes
      before eff)
    (isOk : eff.pushParallelScope ⟨.parallel, ordinal⟩ start (start + left.eventCount)
      (start + left.eventCount + right.eventCount) = .ok after) :
    Holds kept start (start + left.eventCount + right.eventCount) ordinal
      (⟨ordinal, start, .parallel left right, reentry⟩ :: nodes) before after := by
  have leftPos := left.eventCount_pos
  have rightPos := right.eventCount_pos
  unfold pushParallelScope at isOk
  split at isOk
  · cases isOk
  · obtain ⟨event, isEvent, isOk⟩ := Run.of_bind isOk
    obtain ⟨enter, isEnter, isOk⟩ := Run.of_bind isOk
    obtain ⟨first, isFirst, isOk⟩ := Run.of_bind isOk
    obtain ⟨divide, isDivide, isOk⟩ := Run.of_bind isOk
    obtain ⟨second, isSecond, isOk⟩ := Run.of_bind isOk
    obtain ⟨last, isLast, isExit⟩ := Run.of_bind isOk
    obtain rfl := ScopeEvent.eq_of_parallelEnter isEvent
    obtain rfl := ScopeMarker.eq_of_new isEnter
    have entered := Holds.enter ⟨ordinal, start, .parallel left right, reentry⟩ behind holds isFirst
      (by dsimp only; omega)
    have divided := entered.boundary behind isDivide isSecond rfl (by omega) (by omega) (by omega)
    exact divided.boundary behind isLast isExit rfl (by omega) (by omega) fun _ => rfl

theorem pushRollScope_holds {body : Source} (reentry : ReentryMark)
    (behind : MarkersBehind kept start)
    (holds : Holds kept start (start + body.eventCount) (ordinal + 1) nodes before eff)
    (isOk : eff.pushRollScope ⟨.roll, ordinal⟩ start (start + body.eventCount) = .ok after) :
    Holds kept start (start + body.eventCount) ordinal
      (⟨ordinal, start, .roll body, reentry⟩ :: nodes) before after := by
  have bodyPos := body.eventCount_pos
  unfold pushRollScope at isOk
  split at isOk
  · cases isOk
  · obtain ⟨enter, isEnter, isOk⟩ := Run.of_bind isOk
    obtain ⟨first, isFirst, isOk⟩ := Run.of_bind isOk
    obtain ⟨last, isLast, isExit⟩ := Run.of_bind isOk
    obtain rfl := ScopeMarker.eq_of_new isEnter
    have entered := Holds.enter ⟨ordinal, start, .roll body, reentry⟩ behind holds isFirst
      (by dsimp only; omega)
    exact entered.boundary behind isLast isExit rfl (by omega) (by omega) fun _ => rfl

end EffList

/-! ### Colouring changes lanes only -/

/-- Move an event to its new lane. -/
def EffAtom.relane (remap : List UInt8) (atom : EffAtom) : EffAtom :=
  { atom with lane := remap.getD atom.lane.toNat 0 }

/-- The arena with some of its events changed, each as its position says. -/
structure Changed (change : Nat → EffAtom → EffAtom) (eff after : EffList) : Prop where
  rest : after = { eff with events := after.events }
  events : ∀ index, after.events[index]? = (eff.events[index]?).map (change index)

variable {change : Nat → EffAtom → EffAtom}

theorem Changed.refl (same : ∀ index atom, change index atom = atom) (eff : EffList) :
    Changed change eff eff where
  rest := rfl
  events := fun index => by
    rw [show change index = id from funext (same index), Option.map_id, id]

theorem Changed.trans {first second both : Nat → EffAtom → EffAtom} {middle : EffList}
    (isFirst : Changed first eff middle) (isSecond : Changed second middle after)
    (composed : ∀ index atom, second index (first index atom) = both index atom) :
    Changed both eff after where
  rest := by rw [isSecond.rest, isFirst.rest]
  events := fun index => by
    rw [isSecond.events, isFirst.events, Option.map_map]
    congr 1
    funext atom
    exact composed index atom

theorem Changed.len_eq (changed : Changed change eff after) : after.len = eff.len := by
  have same : ∀ index, after.events.length ≤ index ↔ eff.events.length ≤ index := fun index => by
    rw [← getElem?_eq_none_iff, ← getElem?_eq_none_iff, changed.events,
      Option.map_eq_none_iff]
  exact Nat.le_antisymm ((same _).mpr le_rfl) ((same _).mp le_rfl)

theorem atomAt_eq_ok {event : Nat} {atom : EffAtom} (isOk : eff.atomAt event = .ok atom) :
    eff.events[event]? = some atom := by
  unfold EffList.atomAt at isOk
  split at isOk
  · rename_i other present
    rw [present, Except.ok.inj isOk]
  · cases isOk

variable {remap : List UInt8}

theorem remapEvent_changed {event : Nat} (isOk : remapEvent remap eff event = .ok after) :
    Changed (fun index atom => if index = event then atom.relane remap else atom) eff after := by
  obtain ⟨atom, isAtom, isOk⟩ := Run.of_bind isOk
  have found := atomAt_eq_ok isAtom
  unfold EffList.replaceAtom at isOk
  split at isOk
  · cases isOk
  · cases isOk
    refine ⟨rfl, fun index => ?_⟩
    rcases eq_or_ne event index with rfl | other
    · have inside := (List.getElem?_eq_some_iff.mp found).1
      rw [getElem?_set_self inside, found, Option.map_some, if_pos rfl]
      rfl
    · rw [getElem?_set_ne other]
      simp only [if_neg other.symm, Option.map_id']

/-- Moving a range of events to new lanes moves exactly these events. -/
theorem foldlM_remapEvent (count : Nat) {start : Nat}
    (isOk : (List.range' start count).foldlM (remapEvent remap) eff = .ok after) :
    Changed (fun index atom =>
      if start ≤ index ∧ index < start + count then atom.relane remap else atom) eff after := by
  induction count generalizing start eff with
  | zero =>
    obtain rfl := Except.ok.inj isOk
    exact Changed.refl (fun index atom => if_neg (by omega)) eff
  | succ count hyp =>
    rw [range'_succ, foldlM_cons] at isOk
    obtain ⟨middle, isMiddle, isOk⟩ := Run.of_bind isOk
    refine (remapEvent_changed isMiddle).trans (hyp isOk) fun index atom => ?_
    rcases Nat.lt_trichotomy index start with before | rfl | behind
    · rw [if_neg (by omega), if_neg (by omega), if_neg (by omega)]
    · rw [if_neg (by omega), if_pos rfl, if_pos (by omega)]
    · rw [if_neg (Nat.ne_of_gt behind)]
      exact if_congr (by omega) rfl rfl

/-- The arena behind a merge: the events of the right arm are on new lanes. -/
theorem mergeParallelLanes_changed {actors : Option ActorImage}
    {leftStart leftEnd rightEnd leftSpan rightSpan span : Nat}
    (isOk : mergeParallelLanes eff actors leftStart leftEnd rightEnd leftSpan rightSpan =
      .ok (span, after)) :
    ∃ remap, Changed (fun index atom =>
      if leftEnd ≤ index ∧ index < leftEnd + (rightEnd - leftEnd) then atom.relane remap
      else atom) eff after := by
  unfold mergeParallelLanes at isOk
  split at isOk
  · cases isOk
  · split at isOk
    · cases isOk
    · iterate 7 obtain ⟨_, _, isOk⟩ := Run.of_bind isOk
      obtain ⟨⟨remap, resultSpan⟩, _, isOk⟩ := Run.of_bind isOk
      obtain ⟨relaned, isRelaned, isOk⟩ := Run.of_bind isOk
      cases isOk
      exact ⟨remap, foldlM_remapEvent _ isRelaned⟩

/-! ### Lowering a subtree -/

/-- The payload of a message from the payload of its event. -/
def EventPayload.raise : EventPayload → Payload
  | .wire schema => .wire schema
  | .endpoint role => .endpoint ⟨0, role⟩

theorem SourceLowering.raise_of_lowerPayload {payload : Payload} {lowered : EventPayload}
    (isOk : lowerPayload payload = .ok lowered) : payload = lowered.raise := by
  cases payload with
  | wire schema =>
    rw [← Except.ok.inj isOk]
    rfl
  | endpoint key =>
    rw [lowerPayload] at isOk
    split at isOk
    · cases isOk
    · rename_i inside
      rw [← Except.ok.inj isOk, EventPayload.raise, ← not_not.mp inside]

/-- The atom is the lowered message; its lane is free. -/
structure EffAtom.Lowers (atom : EffAtom) (message : Message) : Prop where
  sender : atom.sender = message.fromKey.role
  receiver : atom.receiver = message.toKey.role
  label : atom.label = message.label
  payload : SourceLowering.lowerPayload message.payload = .ok atom.payload
  senderComponent : message.fromKey.component = 0
  receiverComponent : message.toKey.component = 0

variable {message : Message}

theorem EffAtom.Lowers.relane {atom : EffAtom} (lowers : atom.Lowers message) (remap : List UInt8) :
    (atom.relane remap).Lowers message :=
  ⟨lowers.sender, lowers.receiver, lowers.label, lowers.payload, lowers.senderComponent,
    lowers.receiverComponent⟩

/-- The resolvers of these scopes. -/
def ResolversOf (nodes : List ScopeNode) (resolvers : List RouteResolverMarker) : Prop :=
  ∀ entry, entry ∈ resolvers ↔ ∃ node ∈ nodes, ∃ left right resolverId,
    node.composite = .route left right (some resolverId) ∧
      entry = ⟨⟨.route, node.ordinal⟩, resolverId⟩

theorem ResolversOf.append {left right : List ScopeNode}
    {leftEntries rightEntries : List RouteResolverMarker} (isLeft : ResolversOf left leftEntries)
    (isRight : ResolversOf right rightEntries) :
    ResolversOf (left ++ right) (leftEntries ++ rightEntries) := by
  intro entry
  simp only [mem_append, isLeft entry, isRight entry, or_and_right, exists_or]

variable {nodes : List ScopeNode} {entries : List RouteResolverMarker}

/-- A scope without a resolver adds none. -/
theorem ResolversOf.cons (isNodes : ResolversOf nodes entries)
    (noResolver : ∀ left right resolverId, node.composite ≠ .route left right (some resolverId)) :
    ResolversOf (node :: nodes) entries := by
  intro entry
  rw [isNodes, exists_mem_cons_iff, or_iff_right]
  rintro ⟨left, right, resolverId, isRoute, _⟩
  exact noResolver left right resolverId isRoute

/-- A scope with a resolver adds its own at the end. -/
theorem ResolversOf.cons_route (isNodes : ResolversOf nodes entries) {ordinal start : Nat}
    {resolverId : UInt16} :
    ResolversOf (⟨ordinal, start, .route left right (some resolverId), reentry⟩ :: nodes)
      (entries ++ [⟨⟨.route, ordinal⟩, resolverId⟩]) := by
  intro entry
  rw [mem_append, isNodes, mem_singleton, exists_mem_cons_iff, or_comm]
  refine or_congr_left ⟨?_, ?_⟩
  · rintro rfl
    exact ⟨left, right, resolverId, rfl, rfl⟩
  · rintro ⟨_, _, foundId, isRoute, isEntry⟩
    obtain ⟨_, _, same⟩ := Composite.route.inj isRoute
    cases same
    exact isEntry

namespace SourceLowering

/-- What lowering a subtree adds: its events, the markers and the resolvers of its scopes. -/
structure Spec (source : Source) (reentry : ReentryMark)
    (before after : SourceLowering) : Prop where
  ordinal : after.nextScopeOrdinal = before.nextScopeOrdinal + source.scopeCount
  length : after.eff.len = before.eff.len + source.eventCount
  kept : ∀ index < before.eff.len, after.eff.events[index]? = before.eff.events[index]?
  lowered : ∀ index message, source.messageAt index = some message →
    ∃ atom, after.eff.events[before.eff.len + index]? = some atom ∧ atom.Lowers message
  markers : ∃ added, after.eff.markers = before.eff.markers ++ added ∧
    AddedMarkers added before.eff.len (before.eff.len + source.eventCount) before.nextScopeOrdinal
      (source.scopes before.eff.len before.nextScopeOrdinal reentry)
  resolvers : ∃ added, after.eff.resolvers = before.eff.resolvers ++ added ∧
    ResolversOf (source.scopes before.eff.len before.nextScopeOrdinal reentry) added
  capacity : after.eff.capacity = before.eff.capacity
  domain : before.nextScopeOrdinal ≤ ScopeId.localCapacity →
    after.nextScopeOrdinal ≤ ScopeId.localCapacity

variable {reentry : ReentryMark} {before after middle : SourceLowering} {left right : Source}
  {actors : Option ActorImage} {span : Nat} {pushed : EffList} {source : Source}

theorem Spec.behind (spec : Spec source reentry before after)
    (isBehind : MarkersBehind before.eff.markers before.eff.len) :
    MarkersBehind after.eff.markers after.eff.len := by
  have count := source.eventCount_pos
  obtain ⟨added, isAdded, isMarkers⟩ := spec.markers
  rw [isAdded, spec.length]
  refine ⟨pairwise_append.mpr ⟨isBehind.sorted, isMarkers.sorted, ?_⟩, ?_, ?_⟩
  · intro first inBefore second inAdded
    exact (isBehind.upper first inBefore).trans (isMarkers.within second inAdded).lower
  · intro marker mem
    rcases mem_append.mp mem with inBefore | inAdded
    · exact (isBehind.upper marker inBefore).trans (Nat.le_add_right _ _)
    · exact (isMarkers.within marker inAdded).upper
  · intro marker mem isStop
    rcases mem_append.mp mem with inBefore | inAdded
    · have bound := isBehind.upper marker inBefore
      omega
    · exact (isMarkers.within marker inAdded).atStop isStop

theorem Spec.seq (isLeft : Spec left reentry before middle)
    (isRight : Spec right reentry middle after) : Spec (.seq left right) reentry before after := by
  have leftPos := left.eventCount_pos
  have rightPos := right.eventCount_pos
  have leftLength := isLeft.length
  have rightLength := isRight.length
  obtain ⟨leftMarkers, leftAdded, isLeftMarkers⟩ := isLeft.markers
  obtain ⟨rightMarkers, rightAdded, isRightMarkers⟩ := isRight.markers
  obtain ⟨leftResolvers, leftEntries, isLeftResolvers⟩ := isLeft.resolvers
  obtain ⟨rightResolvers, rightEntries, isRightResolvers⟩ := isRight.resolvers
  rw [isLeft.length, isLeft.ordinal] at isRightMarkers isRightResolvers
  refine ⟨?_, ?_, ?_, ?_, ?_, ?_, isRight.capacity.trans isLeft.capacity,
    isRight.domain ∘ isLeft.domain⟩
  · rw [isRight.ordinal, isLeft.ordinal, Source.scopeCount, Nat.add_assoc]
  · rw [rightLength, leftLength, Source.eventCount, Nat.add_assoc]
  · intro index inside
    rw [isRight.kept index (by omega), isLeft.kept index inside]
  · intro index message isMessage
    rw [Source.messageAt] at isMessage
    split at isMessage
    · rename_i inLeft
      obtain ⟨atom, isAtom, lowers⟩ := isLeft.lowered index message isMessage
      exact ⟨atom, by rw [isRight.kept _ (by omega), isAtom], lowers⟩
    · rename_i inRight
      obtain ⟨atom, isAtom, lowers⟩ := isRight.lowered _ message isMessage
      refine ⟨atom, ?_, lowers⟩
      rw [← isAtom, leftLength]
      congr 1
      omega
  · refine ⟨leftMarkers ++ rightMarkers, by rw [rightAdded, leftAdded, append_assoc], ?_⟩
    rw [Source.eventCount, ← Nat.add_assoc]
    exact isLeftMarkers.append isRightMarkers (by omega) (by omega)
  · exact ⟨leftResolvers ++ rightResolvers, by rw [rightEntries, leftEntries, append_assoc],
      isLeftResolvers.append isRightResolvers⟩

theorem emit_send (isOk : emit actors (.send message) reentry before = .ok (span, after)) :
    Spec (.send message) reentry before after := by
  unfold emit at isOk
  split at isOk
  · cases isOk
  · rename_i components
    obtain ⟨payload, isPayload, isOk⟩ := Run.of_bind isOk
    obtain ⟨eff, isEff, isOk⟩ := Run.of_bind isOk
    cases isOk
    unfold EffList.pushEvent at isEff
    split at isEff
    · cases isEff
    · cases isEff
      push Not at components
      refine ⟨rfl, ?_, ?_, ?_, ⟨[], (append_nil _).symm, AddedMarkers.nil _ _ _⟩,
        ⟨[], (append_nil _).symm, ?_⟩, rfl, id⟩
      · simp [EffList.len, Source.eventCount]
      · intro index inside
        exact getElem?_append_left inside
      · intro index found isFound
        obtain ⟨rfl, rfl⟩ : index = 0 ∧ message = found := by
          simpa [Source.messageAt] using isFound
        refine ⟨_, getElem?_concat_length, rfl, rfl, rfl, isPayload, components.1, components.2⟩
      · intro entry
        simp [Source.scopes]

theorem allocateScope_spec {kind : ScopeKind} {scope : ScopeId}
    (isOk : before.allocateScope kind = .ok (scope, after)) :
    scope = ⟨kind, before.nextScopeOrdinal⟩ ∧
      after = { before with nextScopeOrdinal := before.nextScopeOrdinal + 1 } ∧
      before.nextScopeOrdinal < ScopeId.localCapacity := by
  unfold allocateScope at isOk
  split at isOk
  · cases isOk
  · rename_i isOpen
    obtain ⟨found, isFound, isOk⟩ := Run.of_bind isOk
    cases isOk
    unfold ScopeId.new at isFound
    split at isFound
    · cases isFound
    · exact ⟨(Except.ok.inj isFound).symm, rfl, Nat.lt_of_not_le isOpen⟩

/-- The markers of the children, as the markers of a scope are left behind them. -/
theorem Spec.holds (spec : Spec source reentry before after) :
    EffList.Holds before.eff.markers before.eff.len (before.eff.len + source.eventCount)
      before.nextScopeOrdinal (source.scopes before.eff.len before.nextScopeOrdinal reentry)
      after.eff after.eff := by
  obtain ⟨added, isAdded, isMarkers⟩ := spec.markers
  refine ⟨added, ?_, isMarkers⟩
  rw [← isAdded]

theorem emit_route {resolver : Option UInt16}
    (isBehind : MarkersBehind before.eff.markers before.eff.len)
    (isOpen : before.nextScopeOrdinal < ScopeId.localCapacity)
    (arms : Spec (.seq left right) reentry
      { before with nextScopeOrdinal := before.nextScopeOrdinal + 1 } middle)
    {pushed resolved : EffList}
    (isPushed : middle.eff.pushRouteScope ⟨.route, before.nextScopeOrdinal⟩ before.eff.len
      (before.eff.len + left.eventCount) middle.eff.len reentry = .ok pushed)
    (isResolved : bindResolver pushed ⟨.route, before.nextScopeOrdinal⟩ resolver = .ok resolved) :
    Spec (.route left right resolver) reentry before { middle with eff := resolved } := by
  have length := arms.length
  simp only [Source.eventCount, ← Nat.add_assoc] at length
  have holds := arms.holds
  simp only [Source.eventCount, ← Nat.add_assoc] at holds
  rw [length] at isPushed
  obtain ⟨added, rfl, isMarkers⟩ :=
    EffList.pushRouteScope_holds resolver isBehind holds isPushed
  obtain ⟨entries, isEntries, isResolvers⟩ := arms.resolvers
  -- The resolver changes nothing but the resolvers.
  obtain ⟨resolvers, rfl, isAll⟩ : ∃ resolvers, resolved = { middle.eff with
        markers := before.eff.markers ++ added
        resolvers := before.eff.resolvers ++ resolvers } ∧
      ResolversOf ((Source.route left right resolver).scopes before.eff.len
        before.nextScopeOrdinal reentry) resolvers := by
    cases resolver with
    | none =>
      refine ⟨entries, ?_, isResolvers.cons ?_⟩
      · rw [← Except.ok.inj isResolved, ← isEntries]
      · rintro _ _ _ ⟨⟩
    | some resolverId =>
      rw [bindResolver, EffList.pushRouteResolver] at isResolved
      split at isResolved
      · cases isResolved
      · split at isResolved
        · cases isResolved
        · split at isResolved
          · cases isResolved
          · refine ⟨entries ++ [⟨⟨.route, before.nextScopeOrdinal⟩, resolverId⟩], ?_, ?_⟩
            · rw [← Except.ok.inj isResolved, ← append_assoc, ← isEntries]
            · exact isResolvers.cons_route
  refine ⟨?_, ?_, arms.kept, arms.lowered, ⟨added, rfl, ?_⟩, ⟨resolvers, rfl, isAll⟩, arms.capacity,
    fun _ => arms.domain isOpen⟩
  · rw [arms.ordinal, Source.scopeCount, Source.scopeCount]
    dsimp only
    omega
  · exact arms.length
  · rw [Source.eventCount, ← Nat.add_assoc]
    exact isMarkers

theorem emit_par (isBehind : MarkersBehind before.eff.markers before.eff.len)
    (isOpen : before.nextScopeOrdinal < ScopeId.localCapacity)
    (arms : Spec (.seq left right) reentry
      { before with nextScopeOrdinal := before.nextScopeOrdinal + 1 } middle)
    {pushed merged : EffList} {leftSpan rightSpan span : Nat}
    (isPushed : middle.eff.pushParallelScope ⟨.parallel, before.nextScopeOrdinal⟩ before.eff.len
      (before.eff.len + left.eventCount) middle.eff.len = .ok pushed)
    (isMerged : mergeParallelLanes pushed actors before.eff.len (before.eff.len + left.eventCount)
      middle.eff.len leftSpan rightSpan = .ok (span, merged)) :
    Spec (.par left right) reentry before { middle with eff := merged } := by
  have length := arms.length
  simp only [Source.eventCount, ← Nat.add_assoc] at length
  have holds := arms.holds
  simp only [Source.eventCount, ← Nat.add_assoc] at holds
  rw [length] at isPushed
  obtain ⟨added, rfl, isMarkers⟩ :=
    EffList.pushParallelScope_holds reentry isBehind holds isPushed
  obtain ⟨entries, isEntries, isResolvers⟩ := arms.resolvers
  obtain ⟨remap, changed⟩ := mergeParallelLanes_changed isMerged
  have rest := changed.rest
  have events : ∀ index, merged.events[index]? = (middle.eff.events[index]?).map fun atom =>
      if before.eff.len + left.eventCount ≤ index ∧ index < before.eff.len + left.eventCount +
        (middle.eff.len - (before.eff.len + left.eventCount)) then atom.relane remap else atom :=
    changed.events
  refine ⟨?_, ?_, ?_, ?_, ⟨added, ?_, ?_⟩, ⟨entries, ?_, isResolvers.cons ?_⟩, ?_,
    fun _ => arms.domain isOpen⟩
  · rw [arms.ordinal, Source.scopeCount, Source.scopeCount]
    dsimp only
    omega
  · exact changed.len_eq.trans arms.length
  · intro index inside
    rw [events, ← arms.kept index inside]
    cases middle.eff.events[index]? with
    | none => rfl
    | some atom => exact congrArg some (if_neg (by omega))
  · intro index message isMessage
    obtain ⟨atom, isAtom, lowers⟩ := arms.lowered index message isMessage
    rw [events, isAtom]
    refine ⟨_, rfl, ?_⟩
    split
    · exact lowers.relane remap
    · exact lowers
  · rw [rest]
  · rw [Source.eventCount, ← Nat.add_assoc]
    exact isMarkers
  · rw [rest]
    exact isEntries
  · rintro _ _ _ ⟨⟩
  · rw [rest]
    exact arms.capacity

theorem emit_roll {body : Source} (reentry : ReentryMark)
    (isBehind : MarkersBehind before.eff.markers before.eff.len)
    (isOpen : before.nextScopeOrdinal < ScopeId.localCapacity)
    (isBody : Spec body .reentrant
      { before with nextScopeOrdinal := before.nextScopeOrdinal + 1 } middle)
    (isPushed : middle.eff.pushRollScope ⟨.roll, before.nextScopeOrdinal⟩ before.eff.len
      middle.eff.len = .ok pushed) :
    Spec (.roll body) reentry before { middle with eff := pushed } := by
  rw [isBody.length] at isPushed
  obtain ⟨added, rfl, isMarkers⟩ :=
    EffList.pushRollScope_holds reentry isBehind isBody.holds isPushed
  obtain ⟨entries, isEntries, isResolvers⟩ := isBody.resolvers
  refine ⟨?_, isBody.length, isBody.kept, isBody.lowered, ⟨added, rfl, isMarkers⟩,
    ⟨entries, isEntries, isResolvers.cons ?_⟩, isBody.capacity, fun _ => isBody.domain isOpen⟩
  · rw [isBody.ordinal, Source.scopeCount]
    dsimp only
    omega
  · rintro _ _ _ ⟨⟩

/-! ### Lowering a tree -/

/-- Lowering a subtree adds its events and the markers and the resolvers of its scopes. -/
theorem emit_spec (source : Source) (isBehind : MarkersBehind before.eff.markers before.eff.len)
    (isOk : emit actors source reentry before = .ok (span, after)) :
    Spec source reentry before after := by
  induction source generalizing reentry before after span with
  | send message => exact emit_send isOk
  | seq left right hypLeft hypRight =>
    obtain ⟨⟨leftSpan, middle⟩, isLeft, isOk⟩ := Run.of_bind isOk
    obtain ⟨⟨rightSpan, last⟩, isRight, isOk⟩ := Run.of_bind isOk
    cases isOk
    have leftSpec := hypLeft isBehind isLeft
    exact leftSpec.seq (hypRight (leftSpec.behind isBehind) isRight)
  | route left right resolver hypLeft hypRight =>
    obtain ⟨⟨scope, opened⟩, isOpened, isOk⟩ := Run.of_bind isOk
    obtain ⟨rfl, rfl, isOpen⟩ := allocateScope_spec isOpened
    obtain ⟨⟨leftSpan, middle⟩, isLeft, isOk⟩ := Run.of_bind isOk
    obtain ⟨⟨rightSpan, last⟩, isRight, isOk⟩ := Run.of_bind isOk
    obtain ⟨pushed, isPushed, isOk⟩ := Run.of_bind isOk
    obtain ⟨resolved, isResolved, isOk⟩ := Run.of_bind isOk
    cases isOk
    have leftSpec := hypLeft (by exact isBehind) isLeft
    have arms := leftSpec.seq (hypRight (leftSpec.behind isBehind) isRight)
    rw [leftSpec.length] at isPushed
    exact emit_route isBehind isOpen arms isPushed isResolved
  | par left right hypLeft hypRight =>
    obtain ⟨⟨scope, opened⟩, isOpened, isOk⟩ := Run.of_bind isOk
    obtain ⟨rfl, rfl, isOpen⟩ := allocateScope_spec isOpened
    obtain ⟨⟨leftSpan, middle⟩, isLeft, isOk⟩ := Run.of_bind isOk
    obtain ⟨⟨rightSpan, last⟩, isRight, isOk⟩ := Run.of_bind isOk
    obtain ⟨pushed, isPushed, isOk⟩ := Run.of_bind isOk
    obtain ⟨⟨mergedSpan, merged⟩, isMerged, isOk⟩ := Run.of_bind isOk
    cases isOk
    have leftSpec := hypLeft (by exact isBehind) isLeft
    have arms := leftSpec.seq (hypRight (leftSpec.behind isBehind) isRight)
    rw [leftSpec.length] at isPushed isMerged
    exact emit_par isBehind isOpen arms isPushed isMerged
  | roll body hypBody =>
    obtain ⟨⟨scope, opened⟩, isOpened, isOk⟩ := Run.of_bind isOk
    obtain ⟨rfl, rfl, isOpen⟩ := allocateScope_spec isOpened
    obtain ⟨⟨bodySpan, middle⟩, isBody, isOk⟩ := Run.of_bind isOk
    obtain ⟨pushed, isPushed, isOk⟩ := Run.of_bind isOk
    cases isOk
    exact emit_roll reentry isBehind isOpen (hypBody (by exact isBehind) isBody) isPushed

end SourceLowering

end Hibana
