/-
This file proves what the check of a route decides.

The walks over the first visible events of an arm see a part of its heads. A
route that starts an arm is found before a parallel that contains it, so the
right arm of such a parallel is not looked at. The check decides its condition
on the visible heads; it differs from the condition on all heads exactly when a
head behind a leading route fails it.
-/

import HibanaChoreography.Lowering.Placement
import HibanaChoreography.Lowering.RouteControl

namespace Hibana

open Outcome List

/-! ### Searches among the markers -/

variable {node : ScopeNode}

namespace ScopeMarkers

variable {markers : List ScopeMarker} {floor : Nat}

/-- The first marker from the floor on that is not in front of the offset. -/
theorem offsetLowerBound_spec
    (sorted : markers.Pairwise fun first second => first.offset ≤ second.offset) (offset : Nat)
    (inside : floor ≤ markers.length) :
    ∃ low, offsetLowerBound markers offset floor = .ok low ∧ floor ≤ low ∧
      ∀ index marker, floor ≤ index → index < low → markers[index]? = some marker →
        marker.offset < offset := by
  unfold offsetLowerBound
  rw [if_neg (by omega)]
  split
  · exact ⟨floor, rfl, le_rfl, fun index marker lower upper => by omega⟩
  · rename_i notEnd
    have floorBound : floor < markers.length := by omega
    have found : markerAt markers floor = .ok markers[floor] := by
      rw [markerAt, getElem?_eq_getElem floorBound]
    rw [found, Run.bind_ok]
    split
    · exact ⟨floor, rfl, le_rfl, fun index marker lower upper => by omega⟩
    · rename_i early
      have answers : ∀ index, floor + 1 ≤ index → index < markers.length →
          (return decide ((← markerAt markers index).offset < offset) : Run Bool) =
            .ok (decide ((markers[index]?.elim 0 (·.offset)) < offset)) := by
        intro index _ upper
        rw [markerAt, getElem?_eq_getElem upper]
        rfl
      obtain ⟨low, isLow, lower, upper, passed, _⟩ := lowerBound_spec
        (show markers.length - (floor + 1) ≤ markers.length by omega) floorBound answers (by
          intro first second _ ordered bound isPassed
          rw [getElem?_eq_getElem bound, Option.elim_some, decide_eq_true_eq] at isPassed
          rw [getElem?_eq_getElem (by omega), Option.elim_some, decide_eq_true_eq]
          rcases Nat.eq_or_lt_of_le ordered with rfl | less
          · exact isPassed
          · have le := pairwise_iff_getElem.mp sorted first second (by omega) bound less
            omega)
      refine ⟨low, isLow, by omega, ?_⟩
      intro index marker fromFloor below isMarker
      rcases Nat.eq_or_lt_of_le fromFloor with rfl | behind
      · obtain ⟨_, rfl⟩ := List.getElem?_eq_some_iff.mp isMarker
        omega
      · have isPassed := passed index behind below
        rw [isMarker, Option.elim_some, decide_eq_true_eq] at isPassed
        exact isPassed

/-- The scan finds the first marker at the offset that fits. -/
theorem scan_spec (fits : ScopeMarker → Bool) (start : Nat)
    (sorted : markers.Pairwise fun first second => first.offset ≤ second.offset) (index : Nat) :
    (∃ before marker after, markers = before ++ marker :: after ∧
      (marker.offset = start ∧ fits marker = true) ∧
      (∀ skipped ∈ before, ¬ (skipped.offset = start ∧ fits skipped = true)) ∧
      scan fits start markers index = some (index + before.length)) ∨
    ((∀ skipped ∈ markers, ¬ (skipped.offset = start ∧ fits skipped = true)) ∧
      scan fits start markers index = none) := by
  induction markers generalizing index with
  | nil => exact .inr ⟨nofun, rfl⟩
  | cons marker rest hyp =>
    obtain ⟨first, sortedRest⟩ := pairwise_cons.mp sorted
    rw [scan]
    split
    · rename_i behind
      refine .inr ⟨?_, rfl⟩
      rintro skipped mem ⟨isStart, _⟩
      rcases mem_cons.mp mem with rfl | inRest
      · omega
      · have le := first skipped inRest
        omega
    · split
      · rename_i isHit
        exact .inl ⟨[], marker, rest, rfl, isHit, nofun, rfl⟩
      · rename_i noHit
        rcases hyp sortedRest (index + 1) with
          ⟨before, found, after, rfl, isHit, skips, isScan⟩ | ⟨skips, isScan⟩
        · refine .inl ⟨marker :: before, found, after, rfl, isHit, ?_, ?_⟩
          · intro skipped mem
            rcases mem_cons.mp mem with rfl | inBefore
            · exact noHit
            · exact skips skipped inBefore
          · rw [isScan, length_cons]
            congr 1
            omega
        · refine .inr ⟨?_, isScan⟩
          intro skipped mem
          rcases mem_cons.mp mem with rfl | inRest
          · exact noHit
          · exact skips skipped inRest

/-- The search from a floor on finds the first marker at the offset that fits. -/
theorem enterAt_spec (fits : ScopeMarker → Bool) (start : Nat)
    (sorted : markers.Pairwise fun first second => first.offset ≤ second.offset)
    (inside : floor ≤ markers.length) :
    (∃ before marker after, markers = before ++ marker :: after ∧ floor ≤ before.length ∧
      (marker.offset = start ∧ fits marker = true) ∧
      (∀ skipped ∈ before.drop floor, ¬ (skipped.offset = start ∧ fits skipped = true)) ∧
      enterAt fits markers start floor = .ok (some before.length)) ∨
    ((∀ skipped ∈ markers.drop floor, ¬ (skipped.offset = start ∧ fits skipped = true)) ∧
      enterAt fits markers start floor = .ok none) := by
  obtain ⟨low, isLow, floorLow, passed⟩ := offsetLowerBound_spec sorted start inside
  -- Between the floor and the bound no marker is at the offset.
  have early : ∀ skipped ∈ (markers.drop floor).take (low - floor), skipped.offset < start := by
    intro skipped mem
    obtain ⟨position, bound, rfl⟩ := mem_iff_getElem.mp mem
    rw [length_take, length_drop] at bound
    rw [getElem_take, getElem_drop]
    exact passed (floor + position) _ (by omega) (by omega) (getElem?_eq_getElem (by omega))
  have split : markers.drop floor =
      (markers.drop floor).take (low - floor) ++ markers.drop low := by
    conv_lhs => rw [← take_append_drop (low - floor) (markers.drop floor)]
    rw [drop_drop]
    congr 2
    omega
  unfold enterAt
  rw [isLow, Run.bind_ok, Run.pure_eq_ok]
  rcases scan_spec fits start
    (List.Pairwise.sublist (drop_sublist low markers) sorted) low with
    ⟨before, marker, after, isDrop, isHit, skips, isScan⟩ | ⟨skips, isScan⟩
  · have lowBound : low < markers.length := by
      by_contra beyond
      rw [drop_eq_nil_of_le (by omega)] at isDrop
      exact absurd isDrop.symm (append_ne_nil_of_right_ne_nil _ (cons_ne_nil _ _))
    have lengthTake : (markers.take low).length = low := by
      rw [length_take]
      omega
    refine .inl ⟨markers.take low ++ before, marker, after, ?_, ?_, isHit, ?_, ?_⟩
    · rw [append_assoc, ← isDrop, take_append_drop]
    · rw [length_append, lengthTake]
      omega
    · intro skipped mem
      rw [drop_append_of_le_length (by omega), drop_take] at mem
      rcases mem_append.mp mem with inEarly | inBefore
      · intro isHit
        have := early skipped inEarly
        omega
      · exact skips skipped inBefore
    · rw [isScan, length_append, lengthTake]
  · refine .inr ⟨?_, by rw [isScan]⟩
    intro skipped mem
    rw [split] at mem
    rcases mem_append.mp mem with inEarly | inRest
    · intro isHit
      have := early skipped inEarly
      omega
    · exact skips skipped inRest

/-- The floor of a search lies in front of the entries of all but some scopes. -/
structure Floor (eff : EffList) (floor count : Nat) : Prop where
  inside : floor ≤ eff.markers.length
  below : ((eff.markers.take floor).filter (·.event.isPrimaryEnter)).length ≤ count

theorem Floor.zero (eff : EffList) (count : Nat) : Floor eff 0 count :=
  ⟨Nat.zero_le _, Nat.zero_le _⟩

theorem Floor.mono {eff : EffList} {lower count more : Nat} (isFloor : Floor eff floor count)
    (isLower : lower ≤ floor) (isMore : count ≤ more) : Floor eff lower more where
  inside := isLower.trans isFloor.inside
  below := by
    refine (List.Sublist.length_le (List.Sublist.filter _ ?_)).trans (isFloor.below.trans isMore)
    exact take_sublist_take_left isLower

section

variable {eff : EffList} {root : Source} {fits : ScopeMarker → Bool} {start floor : Nat}

/-- The search finds the first scope at the offset that fits. -/
theorem enterAt_scope (lowered : eff.Lowered root)
    (isPrimary : ∀ marker, fits marker = true → marker.event.isPrimaryEnter = true)
    {before after : List ScopeNode}
    (isScopes : root.scopes 0 0 .singlePass = before ++ node :: after)
    (isFloor : Floor eff floor before.length)
    (isHit : node.marker.offset = start ∧ fits node.marker = true)
    (skips : ∀ skipped ∈ before, ¬ (skipped.marker.offset = start ∧ fits skipped.marker = true)) :
    ∃ enter, enterAt fits eff.markers start floor = .ok (some enter) ∧
      eff.markers[enter]? = some node.marker ∧ Floor eff (enter + 1) (before.length + 1) := by
  have primary := lowered.primary
  rw [isScopes, map_append, map_cons] at primary
  have isBelow : ((eff.markers.take floor).filter (·.event.isPrimaryEnter)).length ≤
      (before.map ScopeNode.marker).length := by
    rw [length_map]
    exact isFloor.below
  rcases enterAt_spec fits start lowered.sorted isFloor.inside with
    ⟨front, marker, back, isMarkers, floorFront, found, none, isEnter⟩ | ⟨none, _⟩
  · have isEntry := isPrimary marker found.2
    have sides := primary
    rw [isMarkers, filter_append, filter_cons, if_pos isEntry] at sides
    rcases append_eq_append_cons sides with ⟨rest, inFront⟩ | ⟨skipped, isBefore, isRest⟩
    · -- The scope would lie in front of the marker found.
      rw [isMarkers, take_append_of_le_length floorFront] at isBelow
      exact absurd isHit (none _ (mem_drop_of_filter inFront isBelow))
    · cases skipped with
      | nil =>
        obtain ⟨rfl, _⟩ := List.cons.inj isRest
        rw [append_nil] at isBefore
        refine ⟨front.length, isEnter, ?_, ?_, ?_⟩
        · rw [isMarkers, getElem?_append_right le_rfl, Nat.sub_self]
          rfl
        · rw [isMarkers, length_append, length_cons]
          omega
        · rw [isMarkers, append_cons, take_append_of_le_length (by simp),
            take_of_length_le (by simp), filter_append, length_append, ← isBefore,
            length_map]
          exact Nat.add_le_add_left (length_filter_le _ _) _
      | cons other skipped =>
        obtain ⟨rfl, _⟩ := List.cons.inj isRest
        have mem : marker ∈ before.map ScopeNode.marker := by
          rw [isBefore]
          exact mem_append_right _ mem_cons_self
        obtain ⟨hit, inBefore, rfl⟩ := mem_map.mp mem
        exact absurd found (skips hit inBefore)
  · exact absurd isHit (none _ (mem_drop_of_filter primary isBelow))

/-- The search finds nothing when no scope fits. -/
theorem enterAt_none (lowered : eff.Lowered root)
    (isPrimary : ∀ marker, fits marker = true → marker.event.isPrimaryEnter = true)
    (inside : floor ≤ eff.markers.length)
    (skips : ∀ skipped ∈ root.scopes 0 0 .singlePass,
      ¬ (skipped.marker.offset = start ∧ fits skipped.marker = true)) :
    enterAt fits eff.markers start floor = .ok none := by
  rcases enterAt_spec fits start lowered.sorted inside with
    ⟨front, marker, back, isMarkers, _, found, _, _⟩ | ⟨_, isNone⟩
  · obtain ⟨hit, isScope, rfl⟩ := lowered.exists_scope
      (by rw [isMarkers]; exact mem_append_right _ mem_cons_self)
      (isPrimary marker found.2)
    exact absurd found (skips hit isScope)
  · exact isNone

end

end ScopeMarkers

/-! ### The heads of a source -/

namespace Source

/-- The messages that may come first. -/
def heads : Source → List Message
  | send message => [message]
  | seq left _ => left.heads
  | par left right | route left right _ => left.heads ++ right.heads
  | roll body => body.heads

/-- Whether a route starts with the first event of the source. -/
def leadsWithRoute : Source → Bool
  | send _ => false
  | seq left _ | par left _ => left.leadsWithRoute
  | route _ _ _ => true
  | roll body => body.leadsWithRoute

/-- Whether a parallel starts with the first event of a source that no route leads. -/
def leadsWithParallel : Source → Bool
  | send _ | route _ _ _ => false
  | seq left _ => left.leadsWithParallel
  | par _ _ => true
  | roll body => body.leadsWithParallel

/-- The value of the first visible messages. A route that leads the left arm of a parallel hides
the right arm. -/
def visible {β : Type} (merge : β → β → β) (value : Message → β) : Source → β
  | send message => value message
  | seq left _ => left.visible merge value
  | par left right =>
    if left.leadsWithRoute then left.visible merge value
    else merge (left.visible merge value) (right.visible merge value)
  | route left right _ => merge (left.visible merge value) (right.visible merge value)
  | roll body => body.visible merge value

/-- The heads that the check of a route looks at. -/
def visibleHeads (source : Source) : List Message :=
  source.visible (· ++ ·) fun message => [message]

/-- The heads in the right arm of a parallel whose left arm is led by a route. -/
def hiddenHeads : Source → List Message
  | send _ => []
  | seq left _ => left.hiddenHeads
  | par left right =>
    left.hiddenHeads ++ if left.leadsWithRoute then right.heads else right.hiddenHeads
  | route left right _ => left.hiddenHeads ++ right.hiddenHeads
  | roll body => body.hiddenHeads

/-- A head is visible or hidden. -/
theorem mem_heads_iff {source : Source} {message : Message} :
    message ∈ source.heads ↔ message ∈ source.visibleHeads ∨ message ∈ source.hiddenHeads := by
  unfold visibleHeads
  induction source with
  | send sent => simp [heads, visible, hiddenHeads]
  | seq left right hypLeft _ => exact hypLeft
  | roll body hypBody => exact hypBody
  | par left right hypLeft hypRight =>
    rw [heads, visible, hiddenHeads, mem_append, mem_append]
    split
    · rw [hypLeft, or_assoc]
    · rw [mem_append, hypLeft, hypRight, or_or_or_comm]
  | route left right resolver hypLeft hypRight =>
    rw [heads, visible, hiddenHeads, mem_append, mem_append, mem_append,
      hypLeft, hypRight, or_or_or_comm]

theorem visible_or (test : Message → Bool) (source : Source) :
    source.visible (· || ·) test = source.visibleHeads.any test := by
  unfold visibleHeads
  induction source with
  | send message => simp [visible]
  | seq left right hypLeft _ => exact hypLeft
  | roll body hypBody => exact hypBody
  | par left right hypLeft hypRight =>
    rw [visible, visible]
    split
    · exact hypLeft
    · rw [any_append, hypLeft, hypRight]
  | route left right resolver hypLeft hypRight =>
    rw [visible, visible, any_append, hypLeft, hypRight]

end Source

namespace FirstVisibleController

/-- The controller of some heads: it is unique exactly when they have one sender. -/
structure Describes (controller : FirstVisibleController) (heads : List Message) : Prop where
  nonempty : heads ≠ []
  present : controller ≠ absent
  unique_iff : ∀ role, controller = unique role ↔ ∀ message ∈ heads, message.fromKey.role = role

theorem Describes.role_iff {controller : FirstVisibleController} {heads : List Message}
    (describes : controller.Describes heads) (role : UInt8) :
    controller.role? = some role ↔ ∀ message ∈ heads, message.fromKey.role = role := by
  rw [← describes.unique_iff]
  cases controller <;> simp [role?]

theorem Describes.merge {left right : FirstVisibleController} {leftHeads rightHeads : List Message}
    (isLeft : left.Describes leftHeads) (isRight : right.Describes rightHeads) :
    (left.merge right).Describes (leftHeads ++ rightHeads) := by
  have both : ∀ role, (∀ message ∈ leftHeads ++ rightHeads, message.fromKey.role = role) ↔
      left = unique role ∧ right = unique role := fun role => by
    rw [forall_mem_append, ← isLeft.unique_iff, ← isRight.unique_iff]
  refine ⟨append_ne_nil_of_left_ne_nil isLeft.nonempty _, ?_, fun role => ?_⟩
  · cases left with
    | absent => exact absurd rfl isLeft.present
    | ambiguous => cases right <;> simp [FirstVisibleController.merge]
    | unique first =>
      cases right with
      | absent => exact absurd rfl isRight.present
      | ambiguous => simp [FirstVisibleController.merge]
      | unique second =>
        rw [FirstVisibleController.merge]
        split <;> simp
  · rw [both]
    cases left with
    | absent => exact absurd rfl isLeft.present
    | ambiguous => cases right <;> simp [FirstVisibleController.merge]
    | unique first =>
      cases right with
      | absent => exact absurd rfl isRight.present
      | ambiguous => simp [FirstVisibleController.merge]
      | unique second =>
        rw [FirstVisibleController.merge]
        split <;> grind

theorem describes_visible (source : Source) :
    (source.visible merge (unique ·.fromKey.role)).Describes source.visibleHeads := by
  unfold Source.visibleHeads
  induction source with
  | send message =>
    refine ⟨cons_ne_nil _ _, by simp [Source.visible], fun role => ?_⟩
    simp [Source.visible]
  | seq left right hypLeft _ => exact hypLeft
  | roll body hypBody => exact hypBody
  | par left right hypLeft hypRight =>
    rw [Source.visible, Source.visible]
    split
    · exact hypLeft
    · exact hypLeft.merge hypRight
  | route left right resolver hypLeft hypRight =>
    exact hypLeft.merge hypRight

end FirstVisibleController

/-! ### The scope that leads a source -/

variable {reentry : ReentryMark}

namespace Source

/-- A scope leads a source: it is the first one of its kind in preorder, and the value of the
source is the value of its arms. -/
structure Leads (source : Source) (kind : ScopeKind) (start : Nat) (before : List ScopeNode)
    (node : ScopeNode) (left right : Source) : Prop where
  isStart : node.start = start
  isKind : node.composite.kind = kind
  arms : node.composite.arms = some (left, right)
  first : ∀ other ∈ before, other.composite.kind ≠ kind
  visible : ∀ {β : Type} (merge : β → β → β) (value : Message → β),
    source.visible merge value = merge (left.visible merge value) (right.visible merge value)

/-- Some scope of a list leads a source. -/
def HasLead (source : Source) (kind : ScopeKind) (start : Nat) (nodes : List ScopeNode) : Prop :=
  ∃ before node after left right, nodes = before ++ node :: after ∧
    Leads source kind start before node left right

variable {kind : ScopeKind}

/-- The scope that leads the first part of a source leads the source. -/
theorem HasLead.outer {inner source : Source} {start : Nat} {nodes : List ScopeNode}
    (hasLead : HasLead inner kind start nodes) (outside rest : List ScopeNode)
    (isVisible : ∀ {β : Type} (merge : β → β → β) (value : Message → β),
      source.visible merge value = inner.visible merge value)
    (notKind : ∀ other ∈ outside, other.composite.kind ≠ kind) :
    HasLead source kind start (outside ++ (nodes ++ rest)) := by
  obtain ⟨before, node, after, left, right, rfl, leads⟩ := hasLead
  refine ⟨outside ++ before, node, after ++ rest, left, right, ?_, leads.isStart, leads.isKind,
    leads.arms, forall_mem_append.mpr ⟨notKind, leads.first⟩, fun merge value => ?_⟩
  · simp only [append_assoc, cons_append]
  · rw [isVisible, leads.visible]

variable {source : Source} {start : Nat}

theorem HasLead.roll {body : Source} {ordinal : Nat}
    (hasLead : HasLead body kind start (body.scopes start (ordinal + 1) .reentrant))
    (reentry : ReentryMark) (notRoll : ScopeKind.roll ≠ kind) :
    HasLead (.roll body) kind start ((Source.roll body).scopes start ordinal reentry) := by
  have isScopes : (Source.roll body).scopes start ordinal reentry =
      [⟨ordinal, start, .roll body, reentry⟩] ++
        (body.scopes start (ordinal + 1) .reentrant ++ []) := by
    rw [append_nil]
    rfl
  rw [isScopes]
  refine hasLead.outer _ _ (fun _ _ => rfl) ?_
  intro other mem
  rw [mem_singleton.mp mem]
  exact notRoll

theorem hasLead_route (isLed : source.leadsWithRoute = true) (start ordinal : Nat)
    (reentry : ReentryMark) :
    HasLead source .route start (source.scopes start ordinal reentry) := by
  induction source generalizing ordinal reentry with
  | send message => cases isLed
  | seq left right hypLeft _ =>
    exact (hypLeft isLed ordinal reentry).outer [] _ (fun _ _ => rfl) nofun
  | par left right hypLeft _ =>
    refine (hypLeft isLed (ordinal + 1) reentry).outer
      [⟨ordinal, start, .parallel left right, reentry⟩] _ (fun _ _ => if_pos isLed) ?_
    intro other mem
    rw [mem_singleton.mp mem]
    exact ScopeKind.noConfusion
  | route left right resolver _ _ =>
    exact ⟨[], _, _, left, right, rfl, rfl, rfl, rfl, nofun, fun _ _ => rfl⟩
  | roll body hypBody =>
    exact (hypBody isLed (ordinal + 1) .reentrant).roll reentry ScopeKind.noConfusion

theorem hasLead_parallel (noRoute : source.leadsWithRoute = false)
    (isLed : source.leadsWithParallel = true) (start ordinal : Nat) (reentry : ReentryMark) :
    HasLead source .parallel start (source.scopes start ordinal reentry) := by
  induction source generalizing ordinal reentry with
  | send message => cases isLed
  | seq left right hypLeft _ =>
    exact (hypLeft noRoute isLed ordinal reentry).outer [] _ (fun _ _ => rfl) nofun
  | par left right _ _ =>
    refine ⟨[], _, _, left, right, rfl, rfl, rfl, rfl, nofun, fun merge value => ?_⟩
    rw [leadsWithRoute] at noRoute
    rw [visible, if_neg (ne_true_of_eq_false noRoute)]
  | route left right resolver _ _ => cases isLed
  | roll body hypBody =>
    exact (hypBody noRoute isLed (ordinal + 1) .reentrant).roll reentry ScopeKind.noConfusion

/-- Without a leading route no route starts with the source. -/
theorem no_route_of_not_leads (noRoute : source.leadsWithRoute = false) {ordinal : Nat}
    (mem : node ∈ source.scopes start ordinal reentry) (isStart : node.start = start) :
    node.composite.kind ≠ .route := by
  induction source generalizing ordinal reentry with
  | send message => cases mem
  | seq left right hypLeft _ =>
    rcases mem_append.mp mem with inLeft | inRight
    · exact hypLeft noRoute inLeft
    · have := (scopes_inside inRight).1
      have := left.eventCount_pos
      omega
  | par left right hypLeft _ =>
    rcases mem_cons.mp mem with rfl | inside
    · exact ScopeKind.noConfusion
    · rcases mem_append.mp inside with inLeft | inRight
      · exact hypLeft noRoute inLeft
      · have := (scopes_inside inRight).1
        have := left.eventCount_pos
        omega
  | route left right resolver _ _ => cases noRoute
  | roll body hypBody =>
    rcases mem_cons.mp mem with rfl | inside
    · exact ScopeKind.noConfusion
    · exact hypBody noRoute inside

/-- Without a leading scope no parallel starts with the source, and its first message is its
value. -/
theorem of_not_leads (noRoute : source.leadsWithRoute = false)
    (noParallel : source.leadsWithParallel = false) :
    (∀ {start ordinal : Nat} {reentry : ReentryMark} {node : ScopeNode},
      node ∈ source.scopes start ordinal reentry → node.start = start →
        node.composite.kind ≠ .parallel) ∧
    ∃ message, source.messageAt 0 = some message ∧
      ∀ {β : Type} (merge : β → β → β) (value : Message → β),
        source.visible merge value = value message := by
  induction source with
  | send message => exact ⟨by rintro _ _ _ _ ⟨⟩, message, rfl, fun _ _ => rfl⟩
  | seq left right hypLeft _ =>
    obtain ⟨notParallel, message, isMessage, isVisible⟩ := hypLeft noRoute noParallel
    refine ⟨?_, message, ?_, isVisible⟩
    · intro start ordinal reentry node mem isStart
      rcases mem_append.mp mem with inLeft | inRight
      · exact notParallel inLeft isStart
      · have := (scopes_inside inRight).1
        have := left.eventCount_pos
        omega
    · rw [messageAt, if_pos left.eventCount_pos, isMessage]
  | par left right _ _ => cases noParallel
  | route left right resolver _ _ => cases noRoute
  | roll body hypBody =>
    obtain ⟨notParallel, message, isMessage, isVisible⟩ := hypBody noRoute noParallel
    refine ⟨?_, message, isMessage, isVisible⟩
    intro start ordinal reentry node mem isStart
    rcases mem_cons.mp mem with rfl | inside
    · exact ScopeKind.noConfusion
    · exact notParallel inside isStart

end Source

/-! ### The walk over an arm -/

namespace ScopeNode

/-- The ranges of the two arms of a scope. -/
def armRanges (node : ScopeNode) (left right : Source) : ScopeMarkers.ArmRanges :=
  ⟨node.start, node.start + left.eventCount, node.start + left.eventCount,
    node.start + left.eventCount + right.eventCount⟩

variable {node : ScopeNode} {left right : Source}

theorem stop_eq_of_arms (arms : node.composite.arms = some (left, right)) :
    node.stop = node.start + left.eventCount + right.eventCount := by
  obtain ⟨ordinal, start, composite, reentry⟩ := node
  cases composite with
  | roll body => cases arms
  | route first second resolver | parallel first second =>
    cases arms
    exact (Nat.add_assoc _ _ _).symm

theorem closedRouteArmRanges_marker (isRoute : node.composite.kind = .route)
    (arms : node.composite.arms = some (left, right)) :
    ScopeMarkers.closedRouteArmRanges node.marker = some (node.armRanges left right) := by
  obtain ⟨ordinal, start, composite, reentry⟩ := node
  cases composite with
  | roll body => cases arms
  | parallel first second => cases isRoute
  | route first second resolver =>
    obtain ⟨rfl, rfl⟩ := Prod.mk.inj (Option.some.inj arms)
    have firstCount := first.eventCount_pos
    have secondCount := second.eventCount_pos
    unfold ScopeMarkers.closedRouteArmRanges
    rw [if_neg]
    · exact if_neg (by simp only [marker]; omega)
    · simp only [marker, ScopeEvent.isPrimaryEnter]
      simp only [not_true_eq_false, ne_eq, false_or]
      omega

theorem parallelArmRanges_marker (isParallel : node.composite.kind = .parallel)
    (arms : node.composite.arms = some (left, right)) :
    ScopeMarkers.parallelArmRanges node.marker = some (node.armRanges left right) := by
  obtain ⟨ordinal, start, composite, reentry⟩ := node
  cases composite with
  | roll body => cases arms
  | route first second resolver => cases isParallel
  | parallel first second =>
    obtain ⟨rfl, rfl⟩ := Prod.mk.inj (Option.some.inj arms)
    have firstCount := first.eventCount_pos
    have secondCount := second.eventCount_pos
    unfold ScopeMarkers.parallelArmRanges
    rw [if_neg]
    · exact if_neg (by simp only [marker]; omega)
    · simp [marker, ScopeEvent.isPrimaryEnter]

theorem scopeId_marker (node : ScopeNode) :
    node.marker.scopeId = ⟨node.composite.kind, node.ordinal⟩ := by
  obtain ⟨ordinal, start, composite, reentry⟩ := node
  cases composite <;> rfl

theorem arms_of_kind (notRoll : node.composite.kind ≠ .roll) :
    ∃ left right, node.composite.arms = some (left, right) := by
  obtain ⟨ordinal, start, composite, reentry⟩ := node
  cases composite with
  | roll body => exact absurd rfl notRoll
  | route first second resolver | parallel first second => exact ⟨first, second, rfl⟩

end ScopeNode

namespace ScopeMarkers

theorem routeFits_primary {stop : Nat} (marker : ScopeMarker)
    (isHit : (marker.event.isPrimaryEnter && decide (marker.scopeId.kind = .route) &&
      routeExitsWithin stop marker) = true) : marker.event.isPrimaryEnter = true := by
  simp only [Bool.and_eq_true] at isHit
  exact isHit.1.1

theorem parallelFits_primary {stop : Nat} (marker : ScopeMarker)
    (isHit : (marker.event.isPrimaryEnter && decide (marker.scopeId.kind = .parallel) &&
      parallelExitsWithin stop marker) = true) : marker.event.isPrimaryEnter = true := by
  simp only [Bool.and_eq_true] at isHit
  exact isHit.1.1

variable {stop : Nat}

/-- A route fits into a range when it ends in it. -/
theorem routeFits_iff :
    (node.marker.event.isPrimaryEnter && decide (node.marker.scopeId.kind = .route) &&
      routeExitsWithin stop node.marker) = true ↔
    node.composite.kind = .route ∧ node.stop ≤ stop := by
  rw [node.isPrimaryEnter_marker, node.scopeId_marker, Bool.true_and, Bool.and_eq_true,
    decide_eq_true_eq]
  refine and_congr_right fun (isRoute : node.composite.kind = .route) => ?_
  obtain ⟨left, right, arms⟩ := ScopeNode.arms_of_kind
    (by rw [isRoute]; exact ScopeKind.noConfusion)
  rw [routeExitsWithin, ScopeNode.closedRouteArmRanges_marker isRoute arms, Option.any_some,
    decide_eq_true_eq, ScopeNode.stop_eq_of_arms arms]
  rfl

/-- A parallel fits into a range when it ends in it. -/
theorem parallelFits_iff :
    (node.marker.event.isPrimaryEnter && decide (node.marker.scopeId.kind = .parallel) &&
      parallelExitsWithin stop node.marker) = true ↔
    node.composite.kind = .parallel ∧ node.stop ≤ stop := by
  rw [node.isPrimaryEnter_marker, node.scopeId_marker, Bool.true_and, Bool.and_eq_true,
    decide_eq_true_eq]
  refine and_congr_right fun (isParallel : node.composite.kind = .parallel) => ?_
  obtain ⟨left, right, arms⟩ := ScopeNode.arms_of_kind
    (by rw [isParallel]; exact ScopeKind.noConfusion)
  rw [parallelExitsWithin, ScopeNode.parallelArmRanges_marker isParallel arms, Option.any_some,
    decide_eq_true_eq, ScopeNode.stop_eq_of_arms arms]
  rfl

end ScopeMarkers

namespace Placed

open ScopeMarkers

variable {root part : Source} {start ordinal : Nat} {reentry : ReentryMark}
  {front back : List ScopeNode} {eff : EffList} {kind : ScopeKind} {fits : ScopeMarker → Bool}
  {floor : Nat}

/-- An arm of a scope that a search has found, with the floor of the searches in it. -/
def Arm (root : Source) (eff : EffList) (arm : Source) (start enter : Nat) : Prop :=
  ∃ ordinal reentry front back, Placed root arm start ordinal reentry front back ∧
    Floor eff (enter + 1) front.length

theorem start_lt (placed : Placed root part start ordinal reentry front back)
    (lowered : eff.Lowered root) : start < eff.len := by
  obtain ⟨message, isMessage⟩ := Source.exists_messageAt part.eventCount_pos
  rw [lowered.length]
  exact Source.messageAt_lt (placed.messages 0 message isMessage)

/-- The arms of a route and of a parallel are placed in the same way. -/
theorem arms_of_scope {before rest : List ScopeNode}
    (placed : Placed root node.composite.source node.start node.ordinal node.reentry before rest)
    {left right : Source} (arms : node.composite.arms = some (left, right)) {enter : Nat}
    (isFloor : Floor eff (enter + 1) (before.length + 1)) :
    Arm root eff left node.start enter ∧
      Arm root eff right (node.start + left.eventCount) enter := by
  obtain ⟨ordinal, start, composite, reentry⟩ := node
  cases composite with
  | roll body => cases arms
  | route first second resolver | parallel first second =>
    cases arms
    obtain ⟨leftPlaced, rightPlaced⟩ := placed.terms [_] rfl rfl rfl
      (forall_mem_singleton.mpr ⟨rfl, rfl⟩)
    refine ⟨⟨_, _, _, _, leftPlaced, isFloor.mono le_rfl ?_⟩,
      ⟨_, _, _, _, rightPlaced, isFloor.mono le_rfl ?_⟩⟩
    · simp only [length_append, length_cons, length_nil]
      omega
    · simp only [length_append, length_cons]
      omega

/-- A scope outside a placed subtree does not fit into its range. -/
theorem outside_not_fits (placed : Placed root part start ordinal reentry front back)
    (notRoll : kind ≠ .roll) (mem : node ∈ front ∨ node ∈ back) :
    ¬ (node.start = start ∧ node.composite.kind = kind ∧ node.stop ≤ start + part.eventCount) := by
  rintro ⟨isStart, isKind, isStop⟩
  rcases mem with inFront | inBack
  · have beyond := (placed.front node inFront).2 isStart (isKind ▸ notRoll)
    omega
  · have behind := placed.back node inBack
    have count := part.eventCount_pos
    omega

/-- The search in the range of a subtree finds the scope that leads it. -/
theorem enterAt_lead (placed : Placed root part start ordinal reentry front back)
    (lowered : eff.Lowered root) (isFloor : Floor eff floor front.length) (notRoll : kind ≠ .roll)
    (isPrimary : ∀ marker, fits marker = true → marker.event.isPrimaryEnter = true)
    (fits_iff : ∀ node : ScopeNode, fits node.marker = true ↔
      node.composite.kind = kind ∧ node.stop ≤ start + part.eventCount)
    (hasLead : part.HasLead kind start (part.scopes start ordinal reentry)) :
    ∃ (enter : Nat) (node : ScopeNode) (left right : Source),
      enterAt fits eff.markers start floor = .ok (some enter) ∧
      eff.markers[enter]? = some node.marker ∧ node.composite.kind = kind ∧
      node.composite.arms = some (left, right) ∧ node.start = start ∧
      left.eventCount + right.eventCount ≤ part.eventCount ∧
      (∀ {β : Type} (merge : β → β → β) (value : Message → β),
        part.visible merge value = merge (left.visible merge value) (right.visible merge value)) ∧
      Arm root eff left start enter ∧ Arm root eff right (start + left.eventCount) enter := by
  obtain ⟨before, node, after, left, right, isScopes, leads⟩ := hasLead
  have mem : node ∈ part.scopes start ordinal reentry := by
    rw [isScopes]
    exact mem_append_right _ mem_cons_self
  have isStop := (Source.scopes_inside mem).2
  have rootScopes : root.scopes 0 0 .singlePass = (front ++ before) ++ node :: (after ++ back) := by
    rw [placed.scopes, isScopes]
    simp only [append_assoc, cons_append]
  obtain ⟨enter, isEnter, isMarker, floorEnter⟩ := enterAt_scope lowered isPrimary rootScopes
    (isFloor.mono le_rfl (by rw [length_append]; omega))
    ⟨node.marker_offset.trans leads.isStart, (fits_iff node).mpr ⟨leads.isKind, isStop⟩⟩ (by
      intro skipped inFront
      rw [fits_iff, skipped.marker_offset]
      rcases mem_append.mp inFront with isFront | isBefore
      · exact placed.outside_not_fits notRoll (.inl isFront)
      · exact fun isHit => leads.first skipped isBefore isHit.2.1)
  refine ⟨enter, node, left, right, isEnter, isMarker, leads.isKind, leads.arms, leads.isStart, ?_,
    leads.visible, ?_⟩
  · have isEnd := ScopeNode.stop_eq_of_arms leads.arms
    have := leads.isStart
    omega
  · obtain ⟨rest, inner⟩ := placed.scope isScopes
    rw [← leads.isStart]
    exact inner.arms_of_scope leads.arms floorEnter

/-- The search in the range of a subtree finds nothing when no scope of the kind starts it. -/
theorem enterAt_eq_none (placed : Placed root part start ordinal reentry front back)
    (lowered : eff.Lowered root) (isFloor : Floor eff floor front.length) (notRoll : kind ≠ .roll)
    (isPrimary : ∀ marker, fits marker = true → marker.event.isPrimaryEnter = true)
    (fits_iff : ∀ node : ScopeNode, fits node.marker = true ↔
      node.composite.kind = kind ∧ node.stop ≤ start + part.eventCount)
    (notKind : ∀ node ∈ part.scopes start ordinal reentry, node.start = start →
      node.composite.kind ≠ kind) :
    enterAt fits eff.markers start floor = .ok none := by
  refine enterAt_none lowered isPrimary isFloor.inside ?_
  intro skipped mem
  rw [fits_iff, skipped.marker_offset]
  rw [placed.scopes] at mem
  rcases mem_append.mp mem with inFront | inRest
  · exact placed.outside_not_fits notRoll (.inl inFront)
  · rcases mem_append.mp inRest with inPart | inBack
    · exact fun isHit => notKind skipped inPart isHit.1 isHit.2.1
    · exact placed.outside_not_fits notRoll (.inr inBack)

end Placed

/-- What a walk has to satisfy on a range for its value to be the value of the visible heads. -/
structure VisibleWalk.Visits {β : Type} (visit : VisibleWalk β) (root : Source) (low high : Nat)
    (merge : β → β → β) (value : Message → β) : Prop where
  skip : ∀ start stop, visit.skip start stop = false
  floor : ∀ enter, visit.childFloor enter ≤ enter + 1
  combine : ∀ left right, visit.combine (.ok left) (.ok right) = .ok (merge left right)
  leaf : ∀ event message, low ≤ event → event < high → root.messageAt event = some message →
    visit.leaf event = .ok (value message)

open ScopeMarkers in
/-- The walk over the range of a subtree returns the value of its visible heads. -/
theorem VisibleWalk.walk_visible {β : Type} {visit : VisibleWalk β} {root : Source} {low high : Nat}
    {merge : β → β → β} {value : Message → β} (visits : visit.Visits root low high merge value)
    {eff : EffList} (lowered : eff.Lowered root) {fuel : Nat} {part : Source} {start ordinal : Nat}
    {front back : List ScopeNode} {floor : Nat}
    (placed : Placed root part start ordinal reentry front back)
    (isFloor : Floor eff floor front.length) (enough : part.eventCount ≤ fuel) (lower : low ≤ start)
    (upper : start + part.eventCount ≤ high) :
    visit.walk eff fuel start (start + part.eventCount) floor = .ok (part.visible merge value) := by
  induction fuel generalizing part start ordinal reentry front back floor with
  | zero =>
    have count := part.eventCount_pos
    omega
  | succ fuel hyp =>
    have count := part.eventCount_pos
    have insideRoot := placed.start_lt lowered
    -- The value of a scope from the values of its arms.
    have arms : ∀ {left right : Source} {enter : Nat},
        left.eventCount + right.eventCount ≤ part.eventCount →
        Placed.Arm root eff left start enter →
        Placed.Arm root eff right (start + left.eventCount) enter →
        visit.combine (visit.walk eff fuel start (start + left.eventCount) (visit.childFloor enter))
          (visit.walk eff fuel (start + left.eventCount)
            (start + left.eventCount + right.eventCount) (visit.childFloor enter)) =
        .ok (merge (left.visible merge value) (right.visible merge value)) := by
      rintro left right enter counts ⟨_, _, _, _, leftPlaced, leftFloor⟩
        ⟨_, _, _, _, rightPlaced, rightFloor⟩
      have leftCount := left.eventCount_pos
      have rightCount := right.eventCount_pos
      rw [hyp leftPlaced (leftFloor.mono (visits.floor enter) le_rfl)
          (by omega) (by omega) (by omega),
        hyp rightPlaced (rightFloor.mono (visits.floor enter) le_rfl)
          (by omega) (by omega) (by omega), visits.combine]
    rw [walk, if_neg (by omega), visits.skip, if_neg Bool.false_ne_true]
    cases isRoute : part.leadsWithRoute with
    | true =>
      obtain ⟨enter, node, left, right, isEnter, isMarker, isKind, isArms, isStart, counts,
        isVisible, leftArm, rightArm⟩ := placed.enterAt_lead lowered isFloor
          ScopeKind.noConfusion routeFits_primary (fun _ => routeFits_iff)
          (Source.hasLead_route isRoute start ordinal reentry)
      rw [routeEnterAt, isEnter, Run.bind_ok]
      dsimp only
      rw [routeArmRangesFromFirstEnter, isMarker, Option.bind_some,
        ScopeNode.closedRouteArmRanges_marker isKind isArms]
      dsimp only [ScopeNode.armRanges]
      rw [Run.bind_ok]
      rw [isStart, arms counts leftArm rightArm, isVisible]
    | false =>
      have noRoute := placed.enterAt_eq_none lowered isFloor ScopeKind.noConfusion
        routeFits_primary (fun _ => routeFits_iff) fun node mem isStart =>
          Source.no_route_of_not_leads isRoute mem isStart
      rw [routeEnterAt, noRoute, Run.bind_ok]
      cases isParallel : part.leadsWithParallel with
      | true =>
        obtain ⟨enter, node, left, right, isEnter, isMarker, isKind, isArms, isStart, counts,
          isVisible, leftArm, rightArm⟩ := placed.enterAt_lead lowered isFloor
            ScopeKind.noConfusion parallelFits_primary (fun _ => parallelFits_iff)
            (Source.hasLead_parallel isRoute isParallel start ordinal reentry)
        rw [parallelEnterAt, isEnter, Run.bind_ok]
        dsimp only
        rw [parallelArmRangesFromEnter, isMarker, Option.bind_some,
          ScopeNode.parallelArmRanges_marker isKind isArms]
        dsimp only [ScopeNode.armRanges]
        rw [isStart, arms counts leftArm rightArm, isVisible]
      | false =>
        obtain ⟨noScope, message, isMessage, isVisible⟩ := Source.of_not_leads isRoute isParallel
        have noParallel := placed.enterAt_eq_none lowered isFloor ScopeKind.noConfusion
          parallelFits_primary (fun _ => parallelFits_iff)
          fun node mem isStart => noScope mem isStart
        rw [parallelEnterAt, noParallel, Run.bind_ok]
        rw [visits.leaf start message lower (by omega) (placed.messages 0 message isMessage),
          isVisible]

end Hibana
