/-
This file relates the lowered arena to the subtrees of the source.

A subtree occupies a range of events, and its scopes are consecutive in the
preorder of all scopes. The scopes in front of it start earlier or reach beyond
it, and the scopes behind it start where it ends or later; so a search among the
markers of a range finds scopes of the subtree and no others.
-/

import HibanaChoreography.Library.Search
import HibanaChoreography.Lowering.Scopes

namespace Hibana

open Outcome List

/-! ### The lowered arena -/

/-- The arena holds a lowered source: its messages are the events, and its scopes in preorder are
the primary entries among the markers. -/
structure EffList.Lowered (eff : EffList) (source : Source) : Prop where
  length : eff.len = source.eventCount
  events : ∀ index message, source.messageAt index = some message →
    ∃ atom, eff.events[index]? = some atom ∧ atom.Lowers message
  sorted : eff.markers.Pairwise fun first second => first.offset ≤ second.offset
  primary : eff.markers.filter (·.event.isPrimaryEnter) =
    (source.scopes 0 0 .singlePass).map ScopeNode.marker
  resolvers : ResolversOf (source.scopes 0 0 .singlePass) eff.resolvers

variable {eff : EffList} {capacity span : Nat} {actors : Option ActorImage}

/-- A lowered source comes from the empty arena. -/
theorem emitSource_inv {source : Source}
    (isOk : emitSource capacity actors source = .ok (span, eff)) :
    ∃ (before after : SourceLowering), before.eff.events = [] ∧ before.eff.markers = [] ∧
      before.eff.resolvers = [] ∧ before.nextScopeOrdinal = 0 ∧
      source.eventCount ≤ before.eff.capacity ∧
      SourceLowering.Spec source .singlePass before after ∧ after.eff = eff := by
  unfold emitSource at isOk
  dsimp only at isOk
  split at isOk
  · cases isOk
  · obtain ⟨empty, isEmpty, isEmitted⟩ := Run.of_bind isOk
    obtain ⟨⟨found, lowering⟩, isLowering, isChecked⟩ := Run.of_bind isEmitted
    unfold EffList.newPartitioned at isEmpty
    split at isEmpty
    · cases isEmpty
    · cases isEmpty
      split at isChecked
      · cases isChecked
      · cases isChecked
        refine ⟨_, lowering, rfl, rfl, rfl, rfl, ?_, SourceLowering.emit_spec source
          ⟨List.Pairwise.nil, forall_mem_nil _, forall_mem_nil _⟩ isLowering, rfl⟩
        dsimp only
        omega

/-- Lowering leaves the lowered source. -/
theorem emitSource_lowered {source : Source}
    (isOk : emitSource capacity actors source = .ok (span, eff)) : eff.Lowered source := by
  obtain ⟨before, after, noEvents, noMarkers, noResolvers, isFirst, _, spec, rfl⟩ :=
    emitSource_inv isOk
  have noLength : before.eff.len = 0 := by rw [EffList.len, noEvents, length_nil]
  obtain ⟨added, isAdded, isMarkers⟩ := spec.markers
  obtain ⟨entries, isEntries, isResolvers⟩ := spec.resolvers
  rw [noLength, isFirst] at isMarkers isResolvers
  rw [noMarkers, nil_append] at isAdded
  rw [noResolvers, nil_append] at isEntries
  refine ⟨?_, ?_, ?_, ?_, ?_⟩
  · rw [spec.length, noLength, Nat.zero_add]
  · intro index message isMessage
    have isLowered := spec.lowered index message isMessage
    rwa [noLength, Nat.zero_add] at isLowered
  · rw [isAdded]
    exact isMarkers.sorted
  · rw [isAdded]
    exact isMarkers.primary
  · rw [isEntries]
    exact isResolvers

/-- A lowered source fits in its arena, and its scopes in the domain of their identities. -/
theorem emitSource_room {source : Source}
    (isOk : emitSource capacity actors source = .ok (span, eff)) :
    source.eventCount ≤ eff.capacity ∧ source.scopeCount ≤ ScopeId.localCapacity := by
  obtain ⟨before, after, _, _, _, isFirst, fits, spec, rfl⟩ := emitSource_inv isOk
  have bound := spec.domain (isFirst ▸ Nat.zero_le _)
  rw [spec.ordinal, isFirst, Nat.zero_add] at bound
  exact ⟨spec.capacity ▸ fits, bound⟩

/-- Two arenas that differ at most in the lanes of their events. -/
structure EffList.EqualButLanes (eff other : EffList) : Prop where
  markers : other.markers = eff.markers
  resolvers : other.resolvers = eff.resolvers
  events : other.events.map ({ · with lane := 0 }) = eff.events.map ({ · with lane := 0 })

theorem EffList.EqualButLanes.refl (eff : EffList) : eff.EqualButLanes eff := ⟨rfl, rfl, rfl⟩

/-- New lanes leave the lowered source. -/
theorem EffList.Lowered.equalButLanes {other : EffList} {source : Source}
    (lowered : eff.Lowered source) (same : eff.EqualButLanes other) : other.Lowered source where
  length := by
    rw [← lowered.length, EffList.len, EffList.len]
    simpa only [length_map] using congrArg List.length same.events
  events := fun index message isMessage => by
    obtain ⟨atom, isAtom, lowers⟩ := lowered.events index message isMessage
    have both := congrArg (·[index]?) same.events
    simp only [getElem?_map, isAtom, Option.map_some, Option.map_eq_some_iff] at both
    obtain ⟨found, isFound, isSame⟩ := both
    refine ⟨found, isFound, ?_⟩
    simp only [EffAtom.mk.injEq] at isSame
    obtain ⟨isSender, isReceiver, isLabel, isPayload, _⟩ := isSame
    exact ⟨isSender.trans lowers.sender, isReceiver.trans lowers.receiver,
      isLabel.trans lowers.label, isPayload ▸ lowers.payload, lowers.senderComponent,
      lowers.receiverComponent⟩
  sorted := by
    rw [same.markers]
    exact lowered.sorted
  primary := by rw [same.markers, lowered.primary]
  resolvers := by
    rw [same.resolvers]
    exact lowered.resolvers

/-! ### The ranges and the ordinals of scopes -/

/-- The node of a scope as a source. -/
def Composite.source : Composite → Source
  | .route left right resolver => .route left right resolver
  | .parallel left right => .par left right
  | .roll body => .roll body

def Composite.kind : Composite → ScopeKind
  | .route _ _ _ => .route
  | .parallel _ _ => .parallel
  | .roll _ => .roll

/-- The arms of a route or a parallel. -/
def Composite.arms : Composite → Option (Source × Source)
  | .route left right _ | .parallel left right => some (left, right)
  | .roll _ => none

/-- The position behind the last event of a scope. -/
def ScopeNode.stop (node : ScopeNode) : Nat := node.start + node.composite.source.eventCount

namespace Source

variable {start ordinal : Nat} {reentry : ReentryMark}

/-- A scope of a subtree lies in the range of the subtree. -/
theorem scopes_inside {source : Source} {node : ScopeNode}
    (mem : node ∈ source.scopes start ordinal reentry) :
    start ≤ node.start ∧ node.stop ≤ start + source.eventCount := by
  induction source generalizing start ordinal reentry with
  | send message => cases mem
  | seq left right hypLeft hypRight =>
    rw [eventCount]
    rcases mem_append.mp mem with inLeft | inRight
    · have inside := hypLeft inLeft
      omega
    · have inside := hypRight inRight
      omega
  | par left right hypLeft hypRight
  | route left right resolver hypLeft hypRight =>
    rcases mem_cons.mp mem with rfl | inside
    · exact ⟨le_rfl, le_rfl⟩
    · rw [eventCount]
      rcases mem_append.mp inside with inLeft | inRight
      · have inside := hypLeft inLeft
        omega
      · have inside := hypRight inRight
        omega
  | roll body hypBody =>
    rcases mem_cons.mp mem with rfl | inside
    · exact ⟨le_rfl, le_rfl⟩
    · exact hypBody inside

theorem scopes_start_lt {source : Source} {node : ScopeNode}
    (mem : node ∈ source.scopes start ordinal reentry) :
    node.start < start + source.eventCount := by
  have inside := scopes_inside mem
  have count := node.composite.source.eventCount_pos
  unfold ScopeNode.stop at inside
  omega

/-- The ordinals of the scopes are consecutive. -/
theorem scopes_ordinal (source : Source) (start ordinal : Nat) (reentry : ReentryMark) :
    (source.scopes start ordinal reentry).map ScopeNode.ordinal =
      List.range' ordinal source.scopeCount := by
  induction source generalizing start ordinal reentry with
  | send message => rfl
  | seq left right hypLeft hypRight =>
    rw [scopes, map_append, hypLeft, hypRight, scopeCount, range'_append_1]
  | par left right hypLeft hypRight
  | route left right resolver hypLeft hypRight =>
    rw [scopes, map_cons, map_append, hypLeft, hypRight, scopeCount,
      range'_append_1, range'_succ]
  | roll body hypBody =>
    rw [scopes, map_cons, hypBody, scopeCount, range'_succ]

/-- A scope is determined by its ordinal. -/
theorem scopes_ordinal_injective {source : Source} {first second : ScopeNode}
    (isFirst : first ∈ source.scopes start ordinal reentry)
    (isSecond : second ∈ source.scopes start ordinal reentry)
    (same : first.ordinal = second.ordinal) : first = second := by
  have distinct : ((source.scopes start ordinal reentry).map ScopeNode.ordinal).Nodup := by
    rw [scopes_ordinal]
    exact nodup_range'
  exact inj_on_of_nodup_map distinct isFirst isSecond same

theorem scopes_marker_injective {source : Source} {first second : ScopeNode}
    (isFirst : first ∈ source.scopes start ordinal reentry)
    (isSecond : second ∈ source.scopes start ordinal reentry)
    (same : first.marker = second.marker) : first = second := by
  refine scopes_ordinal_injective isFirst isSecond ?_
  rw [← first.marker_ordinal, same, second.marker_ordinal]

end Source

namespace EffList.Lowered

variable {source : Source} {marker : ScopeMarker}

theorem marker_mem (lowered : eff.Lowered source) {node : ScopeNode}
    (isScope : node ∈ source.scopes 0 0 .singlePass) : node.marker ∈ eff.markers := by
  refine mem_of_mem_filter (p := (·.event.isPrimaryEnter)) ?_
  rw [lowered.primary]
  exact mem_map_of_mem isScope

theorem exists_scope (lowered : eff.Lowered source) (mem : marker ∈ eff.markers)
    (isPrimary : marker.event.isPrimaryEnter = true) :
    ∃ node ∈ source.scopes 0 0 .singlePass, node.marker = marker := by
  rw [← mem_map, ← lowered.primary]
  exact mem_filter.mpr ⟨mem, isPrimary⟩

/-- A visit of a marker that decides about the scope it enters, if it enters one. -/
theorem visit_spec (lowered : eff.Lowered source) (mem : marker ∈ eff.markers) {Value : Type}
    {visit : Run Value} {good : Value} {holds : ScopeNode → Prop}
    (entry : ∀ node ∈ source.scopes 0 0 .singlePass, node.marker = marker →
      ∃ answer, visit = .ok answer ∧ (answer = good ↔ holds node))
    (other : marker.event.isPrimaryEnter = false → visit = .ok good) :
    ∃ answer, visit = .ok answer ∧ (answer = good ↔
      ∀ node ∈ source.scopes 0 0 .singlePass, node.marker = marker → holds node) := by
  cases isPrimary : marker.event.isPrimaryEnter with
  | true =>
    obtain ⟨node, isScope, rfl⟩ := lowered.exists_scope mem isPrimary
    obtain ⟨answer, isAnswer, answers⟩ := entry node isScope rfl
    refine ⟨answer, isAnswer, answers.trans ⟨fun isHeld found isFound same => ?_,
      fun all => all node isScope rfl⟩⟩
    rwa [Source.scopes_marker_injective isFound isScope same]
  | false =>
    refine ⟨good, other isPrimary, iff_of_true rfl ?_⟩
    rintro node _ rfl
    exact absurd (node.isPrimaryEnter_marker.symm.trans isPrimary) Bool.noConfusion

end EffList.Lowered

/-! ### Subtrees in place -/

/-- A subtree in its place in a source: the scopes in front of its own, and those behind. -/
structure Placed (root part : Source) (start ordinal : Nat) (reentry : ReentryMark)
    (front back : List ScopeNode) : Prop where
  scopes : root.scopes 0 0 .singlePass = front ++ (part.scopes start ordinal reentry ++ back)
  front : ∀ node ∈ front, node.start ≤ start ∧
    (node.start = start → node.composite.kind ≠ .roll → start + part.eventCount < node.stop)
  back : ∀ node ∈ back, start + part.eventCount ≤ node.start
  messages : ∀ index message, part.messageAt index = some message →
    root.messageAt (start + index) = some message

namespace Placed

variable {root part left right body : Source} {start ordinal : Nat} {reentry : ReentryMark}
  {front back : List ScopeNode}

theorem self (root : Source) : Placed root root 0 0 .singlePass [] [] where
  scopes := by rw [nil_append, append_nil]
  front := nofun
  back := nofun
  messages := fun index message isMessage => by rwa [Nat.zero_add]

/-- The terms of a sequence are placed, and likewise the arms of a composite behind its
own scope. -/
theorem terms (placed : Placed root part start ordinal reentry front back) (own : List ScopeNode)
    {inner : Nat} (isScopes : part.scopes start ordinal reentry =
      own ++ (Source.seq left right).scopes start inner reentry)
    (isCount : part.eventCount = (Source.seq left right).eventCount)
    (isMessage : part.messageAt = (Source.seq left right).messageAt)
    (isOwn : ∀ node ∈ own, node.start = start ∧ node.stop = start + part.eventCount) :
    Placed root left start inner reentry (front ++ own)
        (right.scopes (start + left.eventCount) (inner + left.scopeCount) reentry ++ back) ∧
      Placed root right (start + left.eventCount) (inner + left.scopeCount) reentry
        (front ++ own ++ left.scopes start inner reentry) back := by
  have leftCount := left.eventCount_pos
  have rightCount := right.eventCount_pos
  have isRoot := placed.scopes
  rw [isScopes, Source.scopes] at isRoot
  rw [Source.eventCount] at isCount
  have early : ∀ node ∈ front ++ own, node.start ≤ start ∧ (node.start = start →
      node.composite.kind ≠ .roll → start + left.eventCount < node.stop) := by
    intro node mem
    rcases mem_append.mp mem with inFront | inOwn
    · have isFront := placed.front node inFront
      exact ⟨isFront.1, fun isStart notRoll => by have := isFront.2 isStart notRoll; omega⟩
    · have isNode := isOwn node inOwn
      exact ⟨isNode.1.le, fun _ _ => by omega⟩
  refine ⟨⟨?_, early, ?_, ?_⟩, ⟨?_, ?_, ?_, ?_⟩⟩
  · simp only [isRoot, append_assoc]
  · intro node mem
    rcases mem_append.mp mem with inRight | inBack
    · exact (Source.scopes_inside inRight).1
    · have isBack := placed.back node inBack
      omega
  · intro index message isLeft
    refine placed.messages index message ?_
    rw [isMessage, Source.messageAt, if_pos (Source.messageAt_lt isLeft), isLeft]
  · simp only [isRoot, append_assoc]
  · intro node mem
    have before : node.start < start + left.eventCount := by
      rcases mem_append.mp mem with outside | inLeft
      · have isEarly := (early node outside).1
        omega
      · exact Source.scopes_start_lt inLeft
    exact ⟨before.le, fun isStart => absurd isStart before.ne⟩
  · intro node mem
    have isBack := placed.back node mem
    omega
  · intro index message isRight
    rw [Nat.add_assoc]
    refine placed.messages (left.eventCount + index) message ?_
    rw [isMessage, Source.messageAt, if_neg (by omega), Nat.add_sub_cancel_left, isRight]

theorem roll_body (placed : Placed root (.roll body) start ordinal reentry front back) :
    Placed root body start (ordinal + 1) .reentrant
      (front ++ [⟨ordinal, start, .roll body, reentry⟩]) back where
  scopes := by
    rw [placed.scopes, Source.scopes]
    simp only [append_assoc, cons_append, nil_append]
  front := fun node mem => by
    rcases mem_append.mp mem with inFront | isNode
    · exact placed.front node inFront
    · rw [mem_singleton.mp isNode]
      exact ⟨le_rfl, fun _ notRoll => absurd rfl notRoll⟩
  back := placed.back
  messages := placed.messages

/-- Every scope of a placed subtree is the scope of a placed subtree. -/
theorem scope (placed : Placed root part start ordinal reentry front back) {node : ScopeNode}
    {before after : List ScopeNode}
    (isScopes : part.scopes start ordinal reentry = before ++ node :: after) :
    ∃ rest, Placed root node.composite.source node.start node.ordinal node.reentry
      (front ++ before) rest := by
  induction part generalizing start ordinal reentry front back before after with
  | send message => exact absurd isScopes.symm (append_ne_nil_of_right_ne_nil _ (by simp))
  | seq left right hypLeft hypRight =>
    obtain ⟨leftPlaced, rightPlaced⟩ := placed.terms [] rfl rfl rfl (forall_mem_nil _)
    rw [append_nil] at leftPlaced rightPlaced
    rcases append_eq_append_cons isScopes with ⟨rest, inLeft⟩ | ⟨skipped, rfl, inRight⟩
    · exact hypLeft leftPlaced inLeft
    · rw [← append_assoc]
      exact hypRight rightPlaced inRight
  | par left right hypLeft hypRight
  | route left right resolver hypLeft hypRight =>
    obtain ⟨leftPlaced, rightPlaced⟩ := placed.terms [_] rfl rfl rfl
      (forall_mem_singleton.mpr ⟨rfl, rfl⟩)
    cases before with
    | nil =>
      obtain ⟨rfl, _⟩ := List.cons.inj isScopes
      exact ⟨back, by rw [append_nil]; exact placed⟩
    | cons own before =>
      obtain ⟨rfl, inArms⟩ := List.cons.inj isScopes
      rcases append_eq_append_cons inArms with ⟨rest, inLeft⟩ | ⟨skipped, rfl, inRight⟩
      · rw [append_cons]
        exact hypLeft leftPlaced inLeft
      · rw [append_cons, ← append_assoc]
        exact hypRight rightPlaced inRight
  | roll body hypBody =>
    cases before with
    | nil =>
      obtain ⟨rfl, _⟩ := List.cons.inj isScopes
      exact ⟨back, by rw [append_nil]; exact placed⟩
    | cons own before =>
      obtain ⟨rfl, inBody⟩ := List.cons.inj isScopes
      rw [append_cons]
      exact hypBody placed.roll_body inBody

end Placed

end Hibana
