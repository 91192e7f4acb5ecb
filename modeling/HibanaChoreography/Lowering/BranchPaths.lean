/-
This file models the branch ancestry of a lowered source,
`global/const_dsl/endpoint_selectors/branch_paths.rs`.

Every route and every parallel is a fork. The forks stand in preorder, each with
its parent, and every event points to the innermost fork around it; an absent
pointer is an absent value here, where the source has the greatest 16-bit number.
Two events are separated by a fork that has them in different arms, and the walk
along the parents finds it as the innermost fork around both of them.
-/

import HibanaChoreography.Library.Ancestry
import HibanaChoreography.Lowering.RouteShapes

namespace Hibana

open Outcome ScopeMarkers List

/-! ### The ancestry -/

structure Fork where
  parent : Option Nat
  split : Nat
  kind : ScopeKind
  deriving DecidableEq, Repr

structure BranchPaths where
  eventForks : Nat → Option Nat
  forks : List Fork

/-- The arms of a fork that hold a guard: the bits 1 and 2 of a byte. -/
structure GuardedArms where
  left : Bool
  right : Bool
  deriving DecidableEq, Repr

def GuardedArms.mark (arms : GuardedArms) (inLeft : Bool) : GuardedArms :=
  if inLeft then { arms with left := true } else { arms with right := true }

namespace BranchPaths

def empty : BranchPaths := ⟨fun _ => none, []⟩

/-- The number that stands for no fork. -/
def noFork : Nat := 65535

/-- Add the fork of a scope: it is the innermost one at its events from here on. -/
def addFork (capacity : Nat) (kind : ScopeKind) (ranges : ArmRanges) (paths : BranchPaths) :
    Run BranchPaths :=
  if capacity ≤ paths.forks.length ∨ noFork ≤ paths.forks.length ∨
      capacity ≤ ranges.leftStart ∨ capacity < ranges.rightEnd then
    .error (.panic "branch ancestry exceeds the source arena")
  else
    .ok {
      eventForks := fun event =>
        if ranges.leftStart ≤ event ∧ event < ranges.rightEnd then some paths.forks.length
        else paths.eventForks event
      forks := paths.forks ++ [⟨paths.eventForks ranges.leftStart, ranges.leftEnd, kind⟩] }

def visitMarker (capacity : Nat) (paths : BranchPaths) (marker : ScopeMarker) : Run BranchPaths :=
  if marker.event.isPrimaryEnter then
    match marker.scopeId.kind with
    | .route =>
      match closedRouteArmRanges marker with
      | some ranges => paths.addFork capacity .route ranges
      | none => .error (.panic "route requires exactly 2 contiguous non-empty closed arms")
    | .parallel =>
      match parallelArmRanges marker with
      | some ranges => paths.addFork capacity .parallel ranges
      | none => .error (.panic "parallel scope requires two nonempty arms")
    | .roll => .ok paths
  else .ok paths

def new (capacity : Nat) (markers : List ScopeMarker) : Run BranchPaths :=
  markers.foldlM (visitMarker capacity) empty

def forkAt (paths : BranchPaths) (index : Nat) : Run Fork :=
  match paths.forks[index]? with
  | some fork => .ok fork
  | none => .error (.panic "index out of bounds")

def parents (paths : BranchPaths) : List (Option Nat) := paths.forks.map Fork.parent

/-- Whether a fork is around an event. -/
def encloses (paths : BranchPaths) (index event : Nat) : Run Bool :=
  Ancestry.meets (paths.parents[·]?) index (paths.forks.length + 1) (paths.eventForks event)

/-- The kind of the fork that has two events in different arms. -/
def separation (paths : BranchPaths) (left right : Nat) : Run (Option ScopeKind) := do
  match ← Ancestry.lowestCommon (paths.parents[·]?) (2 * paths.forks.length + 1)
      (paths.eventForks left) (paths.eventForks right) with
  | none => return none
  | some index =>
    let fork ← paths.forkAt index
    return if decide (left < fork.split) ≠ decide (right < fork.split) then some fork.kind
      else none

/-- Every route from a fork outwards has both events in one arm. -/
def routesAgree (paths : BranchPaths) (earlier later : Nat) : Nat → Option Nat → Run Bool
  | 0, _ => .error .fuel
  | _ + 1, none => .ok true
  | fuel + 1, some index => do
    let ancestor ← paths.forkAt index
    if ancestor.kind = .route then
      if !(← paths.encloses index later) then return false
      else if decide (earlier < ancestor.split) ≠ decide (later < ancestor.split) then return false
      else paths.routesAgree earlier later fuel ancestor.parent
    else paths.routesAgree earlier later fuel ancestor.parent

/-- An event occurs in front of another one whenever that one occurs. -/
def precedesOnEveryPath (paths : BranchPaths) (earlier later : Nat) : Run Bool := do
  if later ≤ earlier then return false
  else if (← paths.separation earlier later).isSome then return false
  else paths.routesAgree earlier later (paths.forks.length + 1) (paths.eventForks earlier)

def recordGuard (paths : BranchPaths) (arms : Nat → GuardedArms) (earlier : Nat) :
    Run (Nat → GuardedArms) :=
  match paths.eventForks earlier with
  | none => .error (.panic "assertion failed: fork != NONE")
  | some index => do
    let fork ← paths.forkAt index
    return Function.update arms index ((arms index).mark (earlier < fork.split))

/-- Whether the guards of a fork cover every way through it to the candidate. -/
def covered (fork : Fork) (arms : GuardedArms) (aroundCandidate : Bool) (candidate : Nat) : Bool :=
  if aroundCandidate then if candidate < fork.split then arms.left else arms.right
  else if fork.kind = .route then arms.left && arms.right
  else arms.left || arms.right

/-- The forks below an index, from the last one on: a covered fork guards its arm of the parent. -/
def guardsFrom (paths : BranchPaths) (candidate : Nat) : Nat → (Nat → GuardedArms) → Run Bool
  | 0, _ => .ok false
  | index + 1, arms => do
    let fork ← paths.forkAt index
    let aroundCandidate ← paths.encloses index candidate
    if covered fork (arms index) aroundCandidate candidate then
      match fork.parent with
      | none => return true
      | some parent =>
        let outer ← paths.forkAt parent
        paths.guardsFrom candidate index
          (Function.update arms parent ((arms parent).mark (fork.split < outer.split)))
    else paths.guardsFrom candidate index arms

def guardsEveryPath (paths : BranchPaths) (arms : Nat → GuardedArms) (candidate : Nat) :
    Run Bool :=
  paths.guardsFrom candidate paths.forks.length arms

end BranchPaths

/-! ### The branches of a source -/

/-- A route or a parallel in its place. -/
structure Branch where
  kind : ScopeKind
  start : Nat
  left : Source
  right : Source
  deriving DecidableEq, Repr

namespace Branch

def split (branch : Branch) : Nat := branch.start + branch.left.eventCount

def stop (branch : Branch) : Nat := branch.split + branch.right.eventCount

def ranges (branch : Branch) : ArmRanges :=
  ⟨branch.start, branch.split, branch.split, branch.stop⟩

/-- The event lies in one of the arms. -/
abbrev Holds (branch : Branch) (event : Nat) : Prop :=
  Ancestry.Holds Branch.start Branch.stop branch event

/-- The first event lies in the left arm and the second in the right arm. -/
def Splits (branch : Branch) (first second : Nat) : Prop :=
  (branch.start ≤ first ∧ first < branch.split) ∧ branch.split ≤ second ∧ second < branch.stop

/-- A later branch lies behind an earlier one or in one of its arms. -/
def Nested (first second : Branch) : Prop :=
  first.stop ≤ second.start ∨ (first.start ≤ second.start ∧ second.stop ≤ first.split) ∨
    (first.split ≤ second.start ∧ second.stop ≤ first.stop)

theorem start_lt_split (branch : Branch) : branch.start < branch.split :=
  Nat.lt_add_of_pos_right branch.left.eventCount_pos

theorem split_lt_stop (branch : Branch) : branch.split < branch.stop :=
  Nat.lt_add_of_pos_right branch.right.eventCount_pos

end Branch

def ScopeNode.branch (node : ScopeNode) : Option Branch :=
  match node.composite with
  | .route left right _ => some ⟨.route, node.start, left, right⟩
  | .parallel left right => some ⟨.parallel, node.start, left, right⟩
  | .roll _ => none

variable {source : Source} {branch : Branch}

namespace Source

/-- The branches of a source, in preorder. -/
def branches : Source → Nat → List Branch
  | send _, _ => []
  | seq left right, start => left.branches start ++ right.branches (start + left.eventCount)
  | par left right, start =>
    ⟨.parallel, start, left, right⟩ ::
      (left.branches start ++ right.branches (start + left.eventCount))
  | route left right _, start =>
    ⟨.route, start, left, right⟩ ::
      (left.branches start ++ right.branches (start + left.eventCount))
  | roll body, start => body.branches start

/-- The branches are the scopes that are not rolls. -/
theorem filterMap_branch_scopes (source : Source) (start ordinal : Nat) (reentry : ReentryMark) :
    (source.scopes start ordinal reentry).filterMap ScopeNode.branch = source.branches start := by
  induction source generalizing start ordinal reentry with
  | send message => rfl
  | seq left right hypLeft hypRight =>
    rw [scopes, filterMap_append, hypLeft, hypRight, branches]
  | par left right hypLeft hypRight
  | route left right resolver hypLeft hypRight =>
    rw [scopes, filterMap_cons, filterMap_append, hypLeft, hypRight]
    rfl
  | roll body hypBody =>
    rw [scopes, filterMap_cons, hypBody]
    rfl

theorem branches_bounds {start : Nat} (mem : branch ∈ source.branches start) :
    start ≤ branch.start ∧ branch.stop ≤ start + source.eventCount := by
  induction source generalizing start with
  | send message => cases mem
  | seq left right hypLeft hypRight =>
    rw [eventCount]
    rcases mem_append.mp mem with inLeft | inRight
    · have bounds := hypLeft inLeft
      omega
    · have bounds := hypRight inRight
      omega
  | par left right hypLeft hypRight
  | route left right resolver hypLeft hypRight =>
    rw [eventCount]
    rcases mem_cons.mp mem with rfl | inside
    · exact ⟨le_rfl, (Nat.add_assoc _ _ _).le⟩
    · rcases mem_append.mp inside with inLeft | inRight
      · have bounds := hypLeft inLeft
        omega
      · have bounds := hypRight inRight
        omega
  | roll body hypBody => exact hypBody mem

theorem branches_pairwise (source : Source) (start : Nat) :
    (source.branches start).Pairwise Branch.Nested := by
  induction source generalizing start with
  | send message => exact List.Pairwise.nil
  | seq left right hypLeft hypRight =>
    refine pairwise_append.mpr ⟨hypLeft _, hypRight _, ?_⟩
    intro first inLeft second inRight
    exact .inl ((branches_bounds inLeft).2.trans (branches_bounds inRight).1)
  | par left right hypLeft hypRight
  | route left right resolver hypLeft hypRight =>
    refine pairwise_cons.mpr ⟨?_, pairwise_append.mpr ⟨hypLeft _, hypRight _, ?_⟩⟩
    · intro branch inside
      rcases mem_append.mp inside with inLeft | inRight
      · exact .inr (.inl (branches_bounds inLeft))
      · exact .inr (.inr (branches_bounds inRight))
    · intro first inLeft second inRight
      exact .inl ((branches_bounds inLeft).2.trans (branches_bounds inRight).1)
  | roll body hypBody => exact hypBody _

theorem branches_nested (source : Source) (start : Nat) :
    Ancestry.Nested Branch.start Branch.stop (source.branches start) := by
  refine (source.branches_pairwise start).imp fun {first second} nested => ?_
  have firstSplit := first.start_lt_split
  have firstStop := first.split_lt_stop
  unfold Branch.Nested at nested
  omega

/-- A source has more events than branches. -/
theorem length_branches_lt (source : Source) (start : Nat) :
    (source.branches start).length < source.eventCount := by
  induction source generalizing start with
  | send message => exact Nat.one_pos
  | seq left right hypLeft hypRight =>
    have leftBound := hypLeft start
    have rightBound := hypRight (start + left.eventCount)
    rw [branches, length_append, eventCount]
    omega
  | par left right hypLeft hypRight
  | route left right resolver hypLeft hypRight =>
    have leftBound := hypLeft start
    have rightBound := hypRight (start + left.eventCount)
    rw [branches, length_cons, length_append, eventCount]
    omega
  | roll body hypBody => exact hypBody start

theorem length_branches_le (source : Source) (start : Nat) :
    (source.branches start).length ≤ source.scopeCount := by
  have ordinals := congrArg List.length (source.scopes_ordinal start 0 .singlePass)
  rw [length_map, length_range'] at ordinals
  rw [← source.filterMap_branch_scopes start 0 .singlePass, ← ordinals]
  exact length_filterMap_le _ _

end Source

/-! ### The ancestry of a lowered source -/

namespace BranchPaths

/-- The ancestry holds these branches. -/
structure Of (paths : BranchPaths) (branches : List Branch) : Prop where
  painted : Ancestry.Painted Branch.start Branch.stop branches paths.eventForks paths.parents
  forks : ∀ (index : Nat) (branch : Branch), branches[index]? = some branch →
    ∃ fork : Fork, paths.forks[index]? = some fork ∧ fork.split = branch.split ∧
      fork.kind = branch.kind

theorem of_empty : empty.Of [] where
  painted := Ancestry.Painted.nil
  forks := by rintro index branch ⟨⟩

variable {paths : BranchPaths} {branches : List Branch}

theorem Of.length_forks (isOf : paths.Of branches) : paths.forks.length = branches.length := by
  rw [← isOf.painted.length, parents, length_map]

variable {capacity : Nat}

/-- Adding the fork of one more branch. -/
theorem Of.addFork (isOf : paths.Of branches) (fits : branches.length < capacity)
    (domain : branches.length < noFork) (inside : branch.stop ≤ capacity) :
    ∃ added, paths.addFork capacity branch.kind branch.ranges = .ok added ∧
      added.Of (branches ++ [branch]) := by
  have count := isOf.length_forks
  have split := branch.start_lt_split
  have stop := branch.split_lt_stop
  unfold BranchPaths.addFork
  rw [if_neg (by simp only [Branch.ranges]; omega)]
  refine ⟨_, rfl, ?_, ?_⟩
  · have painted := isOf.painted.paint branch
    rw [← count] at painted
    simp only [parents, map_append, map_singleton]
    exact painted
  · intro index found isFound
    rcases Nat.lt_or_ge index branches.length with before | last
    · rw [getElem?_append_left before] at isFound
      rw [getElem?_append_left (count ▸ before)]
      exact isOf.forks index found isFound
    · have inBounds := (List.getElem?_eq_some_iff.mp isFound).1
      rw [length_append, length_singleton] at inBounds
      obtain rfl : index = branches.length := by omega
      rw [getElem?_concat_length] at isFound
      cases isFound
      refine ⟨_, by rw [← count, getElem?_concat_length], rfl, rfl⟩

/-- The entry of a scope adds the fork of its branch, if it is one. -/
theorem visitMarker_marker (capacity : Nat) (paths : BranchPaths) (node : ScopeNode) :
    paths.visitMarker capacity node.marker = match node.branch with
      | some branch => paths.addFork capacity branch.kind branch.ranges
      | none => .ok paths := by
  unfold visitMarker
  rw [if_pos node.isPrimaryEnter_marker, node.scopeId_marker]
  obtain ⟨ordinal, start, composite, reentry⟩ := node
  cases composite with
  | roll body => rfl
  | route left right resolver =>
    rw [ScopeNode.closedRouteArmRanges_marker rfl rfl]
    rfl
  | parallel left right =>
    rw [ScopeNode.parallelArmRanges_marker rfl rfl]
    rfl

theorem foldlM_addFork (isOf : paths.Of branches) (added : List Branch)
    (fits : branches.length + added.length ≤ capacity)
    (domain : branches.length + added.length ≤ noFork)
    (inside : ∀ branch ∈ added, branch.stop ≤ capacity) :
    ∃ result, added.foldlM (fun paths branch =>
        paths.addFork capacity branch.kind branch.ranges) paths = .ok result ∧
      result.Of (branches ++ added) := by
  induction added generalizing paths branches with
  | nil => exact ⟨paths, rfl, by rwa [append_nil]⟩
  | cons branch added hyp =>
    rw [length_cons] at fits domain
    obtain ⟨next, isNext, nextOf⟩ := isOf.addFork (show _ < capacity by omega)
      (show _ < noFork by omega) (inside branch mem_cons_self)
    have count : (branches ++ [branch]).length = branches.length + 1 := length_append
    obtain ⟨result, isResult, resultOf⟩ := hyp nextOf (by omega) (by omega)
      fun other mem => inside other (mem_cons_of_mem _ mem)
    refine ⟨result, by rw [foldlM_cons, isNext]; exact isResult, ?_⟩
    rwa [append_assoc, singleton_append] at resultOf

/-- The ancestry of a lowered source holds its branches. -/
theorem new_spec {eff : EffList} (lowered : eff.Lowered source)
    (fits : source.eventCount ≤ capacity) (domain : source.scopeCount ≤ noFork) :
    ∃ paths, new capacity eff.markers = .ok paths ∧ paths.Of (source.branches 0) := by
  obtain ⟨paths, isPaths, isOf⟩ := foldlM_addFork of_empty (source.branches 0)
    (show 0 + _ ≤ capacity by have := source.length_branches_lt 0; omega)
    (show 0 + _ ≤ noFork by have := source.length_branches_le 0; omega)
    (fun branch mem => by have := (Source.branches_bounds mem).2; omega)
  refine ⟨paths, ?_, isOf⟩
  have onlyEntries : new capacity eff.markers =
      (eff.markers.filter (·.event.isPrimaryEnter)).foldlM (visitMarker capacity) empty := by
    rw [foldlM_filter, new]
    congr 1
    funext paths marker
    unfold visitMarker
    split <;> rfl
  rw [onlyEntries, lowered.primary, foldlM_map, ← isPaths,
    ← source.filterMap_branch_scopes 0 0 .singlePass, foldlM_filterMap]
  congr 1
  funext paths node
  rw [visitMarker_marker]
  cases node.branch <;> rfl

/-! ### Queries -/

section

variable {source : Source} {start : Nat} (isOf : paths.Of (source.branches start))

include isOf

/-- The forks around an event. -/
theorem Of.path (event : Nat) :
    Ancestry.Path (paths.parents[·]?) (paths.eventForks event)
      (Ancestry.holders Branch.start Branch.stop (source.branches start) event) :=
  isOf.painted.path (source.branches_nested start) event

theorem Of.length_holders_le (event : Nat) :
    (Ancestry.holders Branch.start Branch.stop (source.branches start) event).length ≤
      paths.forks.length := by
  rw [isOf.length_forks]
  exact Ancestry.length_holders_le _ _

theorem Of.forkAt {index : Nat} (isBranch : (source.branches start)[index]? = some branch) :
    ∃ fork, paths.forkAt index = .ok fork ∧ fork.split = branch.split ∧ fork.kind = branch.kind ∧
      paths.parents[index]? = some fork.parent := by
  obtain ⟨fork, isFork, isSplit, isKind⟩ := isOf.forks index branch isBranch
  refine ⟨fork, by rw [BranchPaths.forkAt, isFork], isSplit, isKind, ?_⟩
  rw [parents, getElem?_map, isFork, Option.map_some]

theorem Of.encloses_eq {index event : Nat}
    (isBranch : (source.branches start)[index]? = some branch) :
    paths.encloses index event = .ok (decide (branch.Holds event)) := by
  rw [encloses, (isOf.path event).meets_eq index (Nat.lt_succ_of_le (isOf.length_holders_le event))]
  refine congrArg Except.ok (decide_eq_decide.mpr ?_)
  rw [Ancestry.mem_holders, isBranch]
  exact ⟨fun ⟨found, isFound, holds⟩ => Option.some.inj isFound ▸ holds,
    fun holds => ⟨branch, rfl, holds⟩⟩

variable {left right : Nat}

omit isOf in
/-- No branch behind an earlier one that splits two events holds both of them. -/
theorem not_holds_of_splits {outer inner : Nat} {first second : Branch}
    (isFirst : (source.branches start)[outer]? = some first)
    (isSecond : (source.branches start)[inner]? = some second) (before : outer < inner)
    (splits : first.Splits left right) (leftHeld : second.Holds left) : ¬ second.Holds right := by
  obtain ⟨outerInside, rfl⟩ := List.getElem?_eq_some_iff.mp isFirst
  obtain ⟨innerInside, rfl⟩ := List.getElem?_eq_some_iff.mp isSecond
  have nested := pairwise_iff_getElem.mp (source.branches_pairwise start) outer inner
    outerInside innerInside before
  have split := (source.branches start)[outer].start_lt_split
  have stop := (source.branches start)[outer].split_lt_stop
  unfold Branch.Nested at nested
  unfold Branch.Splits at splits
  unfold Branch.Holds Ancestry.Holds at leftHeld ⊢
  omega

/-- The separation of two events is the kind of the branch that splits them. -/
theorem Of.separation_spec (before : left < right) :
    ∃ answer, paths.separation left right = .ok answer ∧ ∀ kind, answer = some kind ↔
      ∃ branch ∈ source.branches start, branch.kind = kind ∧ branch.Splits left right := by
  have walk := (isOf.path left).lowestCommon_eq (isOf.path right)
    (show _ < 2 * paths.forks.length + 1 by
      have leftBound := isOf.length_holders_le left
      have rightBound := isOf.length_holders_le right
      omega)
  have common : ∀ index, index ∈ (Ancestry.holders Branch.start Branch.stop
      (source.branches start) left).filter (fun index => decide (index ∈ Ancestry.holders
        Branch.start Branch.stop (source.branches start) right)) ↔
      ∃ branch, (source.branches start)[index]? = some branch ∧ branch.Holds left ∧
        branch.Holds right := by
    intro index
    rw [mem_filter, decide_eq_true_eq, Ancestry.mem_holders, Ancestry.mem_holders]
    constructor
    · rintro ⟨⟨branch, isBranch, leftHeld⟩, other, isOther, rightHeld⟩
      cases isBranch.symm.trans isOther
      exact ⟨branch, isBranch, leftHeld, rightHeld⟩
    · rintro ⟨branch, isBranch, leftHeld, rightHeld⟩
      exact ⟨⟨branch, isBranch, leftHeld⟩, branch, isBranch, rightHeld⟩
  have descending := (Ancestry.holders_pairwise Branch.start Branch.stop
    (source.branches start) left).filter (fun index => decide (index ∈ Ancestry.holders
      Branch.start Branch.stop (source.branches start) right))
  have split_holds : ∀ {branch : Branch}, branch.Splits left right →
      branch.Holds left ∧ branch.Holds right := by
    intro branch splits
    have isSplit := branch.start_lt_split
    have isStop := branch.split_lt_stop
    unfold Branch.Splits at splits
    unfold Branch.Holds Ancestry.Holds
    omega
  unfold separation
  rw [walk, Run.bind_ok]
  generalize (Ancestry.holders Branch.start Branch.stop (source.branches start) left).filter _ =
    indices at common descending
  cases indices with
  | nil =>
    refine ⟨none, rfl, fun kind => iff_of_false (by rintro ⟨⟩) ?_⟩
    rintro ⟨branch, mem, _, splits⟩
    obtain ⟨index, isBranch⟩ := mem_iff_getElem?.mp mem
    exact not_mem_nil ((common index).mpr ⟨branch, isBranch, split_holds splits⟩)
  | cons index rest =>
    obtain ⟨branch, isBranch, leftHeld, rightHeld⟩ := (common index).mp mem_cons_self
    obtain ⟨fork, isFork, isSplit, isKind, _⟩ := isOf.forkAt isBranch
    -- The branch that splits the events is the innermost one around both.
    have innermost : ∀ {other : Branch}, other ∈ source.branches start →
        other.Splits left right → other = branch := by
      intro other mem splits
      obtain ⟨place, isOther⟩ := mem_iff_getElem?.mp mem
      rcases mem_cons.mp ((common place).mpr ⟨other, isOther, split_holds splits⟩) with
        rfl | inRest
      · exact Option.some.inj (isOther.symm.trans isBranch)
      · have outside := (pairwise_cons.mp descending).1 place inRest
        exact absurd rightHeld (not_holds_of_splits isOther isBranch outside splits leftHeld)
    simp only [head?_cons]
    rw [isFork, Run.bind_ok, isSplit, isKind]
    refine ⟨_, rfl, fun kind => ?_⟩
    by_cases sides : branch.Splits left right
    · rw [if_pos]
      · constructor
        · intro isSome
          exact ⟨branch, mem_of_getElem? isBranch, Option.some.inj isSome, sides⟩
        · rintro ⟨other, mem, rfl, splits⟩
          rw [innermost mem splits]
      · rw [decide_eq_true sides.1.2, decide_eq_false (Nat.not_lt.mpr sides.2.1)]
        exact Bool.noConfusion
    · rw [if_neg]
      · refine iff_of_false (by rintro ⟨⟩) ?_
        rintro ⟨other, mem, _, splits⟩
        exact sides (innermost mem splits ▸ splits)
      · rw [ne_eq, not_not, decide_eq_decide]
        unfold Branch.Splits at sides
        unfold Branch.Holds Ancestry.Holds at leftHeld rightHeld
        omega

/-- The routes along a path have both events in one arm. -/
theorem Of.routesAgree_spec (earlier later : Nat) {index : Option Nat} {indices : List Nat}
    (path : Ancestry.Path (paths.parents[·]?) index indices) {fuel : Nat}
    (enough : indices.length < fuel) :
    ∃ answer, paths.routesAgree earlier later fuel index = .ok answer ∧
      (answer = true ↔ ∀ index ∈ indices, ∀ branch, (source.branches start)[index]? = some branch →
        branch.kind = .route →
          branch.Holds later ∧ (earlier < branch.split ↔ later < branch.split)) := by
  induction path generalizing fuel with
  | root =>
    cases fuel with
    | zero => cases enough
    | succ fuel => exact ⟨true, rfl, iff_of_true rfl nofun⟩
  | @step index next rest isNext path below hyp =>
    cases fuel with
    | zero => cases enough
    | succ fuel =>
      obtain ⟨answer, isAnswer, agrees⟩ := hyp (Nat.lt_of_succ_lt_succ enough)
      have inside : index < (source.branches start).length := by
        rw [← isOf.length_forks, ← length_map Fork.parent]
        exact (List.getElem?_eq_some_iff.mp isNext).1
      have isBranch := getElem?_eq_getElem inside
      generalize (source.branches start)[index] = branch at isBranch
      obtain ⟨fork, isFork, isSplit, isKind, isParent⟩ := isOf.forkAt isBranch
      cases isNext.symm.trans isParent
      have members : ∀ {condition : Nat → Branch → Prop}, (∀ found ∈ index :: rest, ∀ branch,
          (source.branches start)[found]? = some branch → condition found branch) ↔
          condition index branch ∧ ∀ found ∈ rest, ∀ branch,
            (source.branches start)[found]? = some branch → condition found branch := by
        intro condition
        rw [forall_mem_cons, isBranch]
        exact and_congr_left' ⟨fun all => all branch rfl, fun holds _ same =>
          Option.some.inj same ▸ holds⟩
      rw [routesAgree, isFork, Run.bind_ok, isOf.encloses_eq isBranch, Run.bind_ok, isSplit, isKind]
      simp only [members, agrees.symm]
      by_cases isRoute : branch.kind = .route
      · rw [if_pos isRoute]
        by_cases holds : branch.Holds later
        · rw [decide_eq_true holds]
          by_cases sides : earlier < branch.split ↔ later < branch.split
          · rw [if_neg (by simp), if_neg (by simpa using sides)]
            exact ⟨answer, isAnswer, by simp only [isRoute, holds, sides, and_self, forall_const,
              true_and]⟩
          · rw [if_neg (by simp), if_pos (by simpa using sides)]
            exact ⟨false, rfl, iff_of_false Bool.false_ne_true fun all => sides (all.1 isRoute).2⟩
        · rw [decide_eq_false holds]
          exact ⟨false, rfl, iff_of_false Bool.false_ne_true fun all => holds (all.1 isRoute).1⟩
      · rw [if_neg isRoute]
        exact ⟨answer, isAnswer, by simp only [isRoute, IsEmpty.forall_iff, true_and]⟩

/-- An event that no branch splits from a later one precedes it on every path exactly when every
route around it is around the later one, too. -/
theorem Of.precedesOnEveryPath_spec {earlier later : Nat} (before : earlier < later)
    (together : ∀ branch ∈ source.branches start, ¬ branch.Splits earlier later) :
    ∃ answer, paths.precedesOnEveryPath earlier later = .ok answer ∧
      (answer = true ↔ ∀ branch ∈ source.branches start, branch.kind = .route →
        branch.Holds earlier → branch.Holds later) := by
  obtain ⟨separated, isSeparated, separates⟩ := isOf.separation_spec before
  have notSeparated : separated = none := by
    cases separated with
    | none => rfl
    | some kind =>
      obtain ⟨branch, mem, _, splits⟩ := (separates kind).mp rfl
      exact absurd splits (together branch mem)
  obtain ⟨answer, isAnswer, agrees⟩ := isOf.routesAgree_spec earlier later (isOf.path earlier)
    (Nat.lt_succ_of_le (isOf.length_holders_le earlier))
  refine ⟨answer, ?_, agrees.trans ?_⟩
  · rw [precedesOnEveryPath, if_neg (Nat.not_le.mpr before), isSeparated, notSeparated]
    exact isAnswer
  · constructor
    · intro all branch mem isRoute holds
      obtain ⟨index, isBranch⟩ := mem_iff_getElem?.mp mem
      exact (all index (Ancestry.mem_holders.mpr ⟨branch, isBranch, holds⟩) branch isBranch
        isRoute).1
    · intro all index mem branch isBranch isRoute
      obtain ⟨found, isFound, holds⟩ := Ancestry.mem_holders.mp mem
      obtain rfl := Option.some.inj (isFound.symm.trans isBranch)
      have inBranches := mem_of_getElem? isBranch
      have laterHeld := all found inBranches isRoute holds
      refine ⟨laterHeld, ?_⟩
      have notSplit := together found inBranches
      unfold Branch.Splits at notSplit
      simp only [Branch.Holds, Ancestry.Holds] at holds laterHeld
      omega

end

end BranchPaths

end Hibana
