/-
This file says what a lowered list tells about its source: the walks over its branch
paths answer like the tree, and sources with one list agree in messages and order.
-/

import HibanaChoreography.Lowering.RollHeads

namespace Hibana

open Outcome

namespace Source

variable {source : Source} {first second : Nat}

theorem before_iff_unsplit (inside : second < source.eventCount) :
    source.before first second = true ↔ first < second ∧
      ∀ branch ∈ source.branches 0, ¬ branch.Splits first second := by
  by_cases ordered : first < second
  · rw [and_iff_right ordered]
    exact before_iff (Nat.zero_le first) ordered (by omega)
  · simp [ordered, before_of_le (Nat.not_lt.mp ordered)]

/-- The routes around an event are around a later one if every choice with the later one has it. -/
theorem routes_around_iff (inside : second < source.eventCount) (ordered : first < second)
    (unsplit : ∀ branch ∈ source.branches 0, ¬ branch.Splits first second) :
    (∀ branch ∈ source.branches 0, branch.kind = .route → branch.Holds first →
        branch.Holds second) ↔
      ∀ assignment, second ∈ source.positions 0 assignment →
        first ∈ source.positions 0 assignment := by
  constructor
  · intro around assignment present
    have guarded : source.Guarded 0 (· = first) second :=
      guarded_of_shared_routes inside ordered rfl (fun branch mem => ⟨unsplit branch mem, by
        unfold Branch.Splits
        omega⟩) around
    obtain ⟨_, isPresent, rfl⟩ := guarded assignment fun _ _ => present
    exact isPresent
  · intro kept branch mem isRoute holds
    by_contra outside
    -- The route takes the arm without the first event, and nothing else changes.
    have : Nontrivial Arm := ⟨.left, .right, by decide⟩
    obtain ⟨arm, isOther⟩ := exists_ne (branch.scope.armAt first)
    let other : Assignment := Function.update (fun scope => scope.armAt second) branch.scope arm
    have present : second ∈ source.positions 0 other := by
      refine mem_positions_iff.mpr ⟨by omega, fun around _ _ aroundHolds => ?_⟩
      refine Function.update_of_ne (fun same => outside ?_) _ _
      rw [Branch.scope, Branch.scope, Scope.mk.injEq] at same
      exact ⟨same.1 ▸ aroundHolds.1, same.2.2 ▸ aroundHolds.2⟩
    have taken := (mem_positions_iff.mp (kept other present)).2 branch mem isRoute holds
    exact isOther ((Function.update_self ..).symm.trans taken)

end Source

variable {capacity span : Nat} {actors : Option ActorImage} {source : Source} {eff : EffList}

/-- The branch paths of a lowered source answer like its tree: events are separated by the branch
with them in opposite arms, and an event precedes a later one on every path exactly when it comes
before it and every choice with the later one has it. -/
theorem branchPaths_answer_like_tree (isOk : emitSource capacity actors source = .ok (span, eff)) :
    ∃ paths, BranchPaths.new eff.capacity eff.markers = .ok paths ∧
      ∀ first second, first < second → second < source.eventCount →
        (∃ separated, paths.separation first second = .ok separated ∧
          (separated = none ↔ source.before first second = true) ∧
          ∀ kind, separated = some kind ↔
            ∃ branch ∈ source.branches 0, branch.kind = kind ∧ branch.Splits first second) ∧
        ∃ precedes, paths.precedesOnEveryPath first second = .ok precedes ∧
          (precedes = true ↔ source.before first second = true ∧
            ∀ assignment, second ∈ source.positions 0 assignment →
              first ∈ source.positions 0 assignment) := by
  obtain ⟨fits, domain⟩ := emitSource_room isOk
  obtain ⟨paths, isPaths, isOf⟩ := BranchPaths.new_spec (emitSource_lowered isOk) fits
    (domain.trans (by decide))
  refine ⟨paths, isPaths, fun first second ordered inside => ?_⟩
  obtain ⟨separated, isSeparated, separates⟩ := isOf.separation_spec ordered
  have isBefore : separated = none ↔ source.before first second = true := by
    rw [Source.before_iff_unsplit inside, and_iff_right ordered, Option.eq_none_iff_forall_ne_some]
    simp only [ne_eq, separates, not_exists, not_and]
    exact ⟨fun apart branch mem => apart _ branch mem rfl,
      fun unsplit _ branch mem _ => unsplit branch mem⟩
  refine ⟨⟨separated, isSeparated, isBefore, separates⟩, ?_⟩
  cases separated with
  | none =>
    have unsplit := ((Source.before_iff_unsplit inside).mp (isBefore.mp rfl)).2
    obtain ⟨precedes, isPrecedes, answers⟩ := isOf.precedesOnEveryPath_spec ordered unsplit
    refine ⟨precedes, isPrecedes, answers.trans ?_⟩
    rw [Source.routes_around_iff inside ordered unsplit, and_iff_right (isBefore.mp rfl)]
  | some kind =>
    refine ⟨false, ?_, iff_of_false Bool.false_ne_true fun both => ?_⟩
    · rw [BranchPaths.precedesOnEveryPath, if_neg (Nat.not_le.mpr ordered), isSeparated]
      rfl
    · cases isBefore.mpr both.1

theorem branchPaths_answer_coveredSender : ∃ paths,
    BranchPaths.new 15 coveredArena.markers = .ok paths ∧ paths.separation 0 1 ≠ .ok none := by
  obtain ⟨paths, isPaths, answers⟩ := branchPaths_answer_like_tree coveredSender_emitted
  obtain ⟨⟨_, isSeparated, isBefore, _⟩, _⟩ := answers 0 1 (by decide) (by decide)
  refine ⟨paths, isPaths, ?_⟩
  rw [isSeparated, ne_eq, Except.ok.injEq, isBefore]
  decide

/-! ### The source of a list -/

/-- The kind and the range of the branch that a primary entry opens. -/
def ScopeMarker.branchRange (marker : ScopeMarker) : Option (ScopeKind × Scope) :=
  match marker.event with
  | .enter (.route rightEnd) => some (.route, ⟨marker.offset, marker.segmentEnd, rightEnd⟩)
  | .enter (.parallel split) => some (.parallel, ⟨marker.offset, split, marker.segmentEnd⟩)
  | _ => none

theorem EffList.Lowered.branchRanges (lowered : eff.Lowered source) :
    (eff.markers.filter (·.event.isPrimaryEnter)).filterMap ScopeMarker.branchRange =
      (source.branches 0).map fun branch => (branch.kind, branch.scope) := by
  rw [lowered.primary, ← Source.filterMap_branch_scopes source 0 0 .singlePass, List.filterMap_map,
    List.map_filterMap]
  congr 1
  funext node
  obtain ⟨ordinal, start, composite, reentry⟩ := node
  cases composite with
  | route | parallel | roll => rfl

/-- The message of a lowered event. -/
def EffAtom.raise (atom : EffAtom) : Message :=
  ⟨⟨0, atom.sender⟩, ⟨0, atom.receiver⟩, atom.label, atom.payload.raise⟩

theorem EffAtom.Lowers.eq_raise {atom : EffAtom} {message : Message}
    (lowers : atom.Lowers message) : message = atom.raise := by
  obtain ⟨⟨_, _⟩, ⟨_, _⟩, _, _⟩ := message
  obtain ⟨rfl, rfl, rfl, isPayload, rfl, rfl⟩ := lowers
  exact congrArg (Message.mk _ _ _) (SourceLowering.raise_of_lowerPayload isPayload)

theorem EffList.Lowered.messageAt_eq (lowered : eff.Lowered source) (event : Nat) :
    source.messageAt event = (eff.events[event]?).map EffAtom.raise := by
  cases isMessage : source.messageAt event with
  | some message =>
    obtain ⟨atom, isAtom, lowers⟩ := lowered.events event message isMessage
    rw [isAtom, lowers.eq_raise, Option.map_some]
  | none =>
    have outside : ¬ event < source.eventCount := fun inside => by
      obtain ⟨_, isSome⟩ := Source.exists_messageAt inside
      cases isMessage.symm.trans isSome
    rw [← lowered.length, Nat.not_lt] at outside
    rw [List.getElem?_eq_none outside, Option.map_none]

/-- A lowered list determines the messages of its source, their order, and the events on every
choice of the routes. -/
theorem loweredList_determines_source {first second : Source} {other : EffList}
    {otherCapacity otherSpan : Nat} {otherActors : Option ActorImage}
    (isFirst : emitSource capacity actors first = .ok (span, eff))
    (isSecond : emitSource otherCapacity otherActors second = .ok (otherSpan, other))
    (same : eff.EqualButLanes other) :
    (∀ event, first.messageAt event = second.messageAt event) ∧
      (∀ earlier later, later < first.eventCount →
        first.before earlier later = second.before earlier later) ∧
      ∀ assignment event, event ∈ first.positions 0 assignment ↔
        event ∈ second.positions 0 assignment := by
  have left := (emitSource_lowered isFirst).equalButLanes same
  have right := emitSource_lowered isSecond
  have count : first.eventCount = second.eventCount := left.length.symm.trans right.length
  have branches : ∀ holds : ScopeKind × Scope → Prop,
      (∀ branch ∈ first.branches 0, holds (branch.kind, branch.scope)) ↔
        ∀ branch ∈ second.branches 0, holds (branch.kind, branch.scope) := by
    intro holds
    rw [← List.forall_mem_map, ← left.branchRanges, right.branchRanges, List.forall_mem_map]
  refine ⟨fun event => by rw [left.messageAt_eq, right.messageAt_eq],
    fun earlier later inside => Bool.eq_iff_iff.mpr ?_, fun assignment event => ?_⟩
  · rw [Source.before_iff_unsplit inside, Source.before_iff_unsplit (count ▸ inside)]
    exact and_congr_right fun _ => branches fun range =>
      ¬ ((range.2.start ≤ earlier ∧ earlier < range.2.split) ∧
        range.2.split ≤ later ∧ later < range.2.stop)
  · rw [Source.mem_positions_iff, Source.mem_positions_iff, count]
    exact and_congr_right fun _ => branches fun range => range.1 = .route →
      range.2.start ≤ event ∧ event < range.2.stop → assignment range.2 = range.2.armAt event

/-- Two groupings of three messages. -/
theorem loweredList_determines_grouping : ∀ event,
    (Source.seq (.seq coveredRight coveredRight) coveredRight).messageAt event =
      (Source.seq coveredRight (.seq coveredRight coveredRight)).messageAt event :=
  (loweredList_determines_source (show emitSource 3 none _ = .ok (1, _) from rfl)
    (show emitSource 3 none _ = .ok (1, _) from rfl) (.refl _)).1

end Hibana
