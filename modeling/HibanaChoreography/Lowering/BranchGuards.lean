/-
This file says what the guards of a candidate mean and that the ancestry decides it.

A candidate is guarded when every choice of the routes on which it is present has
a guard present as well. The terms of a sequence and the arms of a parallel are
chosen independently, so one of them must be guarded by itself; a route that is
not around the candidate needs a guard in each of its arms. The walk over the
forks from the last to the first computes this for every fork from its guards and
from the forks inside it.
-/

import HibanaChoreography.Lowering.BranchPaths

namespace Hibana

open Outcome List

/-- The scope of a branch that is a route. -/
def Branch.scope (branch : Branch) : Scope := ⟨branch.start, branch.split, branch.stop⟩

namespace Source

/-! ### Independent choices -/

/-- A subtree and one behind it can be chosen independently. -/
theorem exists_joint_assignment (left right : Source) (start : Nat) (first second : Assignment) :
    ∃ joint, left.positions start joint = left.positions start first ∧
      right.positions (start + left.eventCount) joint =
        right.positions (start + left.eventCount) second := by
  refine ⟨fun scope => if scope.start < start + left.eventCount then first scope
    else second scope, ?_, ?_⟩
  · refine congrArg (List.map Prod.fst) (presentEvents_congr fun scope mem => if_pos ?_)
    have bounds := routes_bounds mem
    omega
  · refine congrArg (List.map Prod.fst) (presentEvents_congr fun scope mem => if_neg ?_)
    have bounds := routes_bounds mem
    omega

/-- A route can take either arm whatever happens in the arms. -/
theorem exists_arm_assignment (left right : Source) (start : Nat) (env : Assignment) (arm : Arm) :
    ∃ chosen, chosen (routeScope start left right) = arm ∧
      left.positions start chosen = left.positions start env ∧
      right.positions (start + left.eventCount) chosen =
        right.positions (start + left.eventCount) env := by
  refine ⟨Function.update env (routeScope start left right) arm, Function.update_self _ _ _, ?_, ?_⟩
  all_goals
    refine congrArg (List.map Prod.fst) (presentEvents_congr fun scope mem =>
      Function.update_of_ne ?_ _ _)
    rintro rfl
  · exact routeScope_notMem_left start left right mem
  · exact routeScope_notMem_right start left right mem

/-- Every route around an event takes its arm. -/
def Keeps (source : Source) (start : Nat) (assignment : Assignment) (event : Nat) : Prop :=
  ∀ branch ∈ source.branches start, branch.kind = .route → branch.Holds event →
    assignment branch.scope = branch.scope.armAt event

variable {env : Assignment} {event : Nat} {branch : Branch}

theorem keeps_of_outside {source : Source} {start : Nat}
    (outside : ¬ (start ≤ event ∧ event < start + source.eventCount)) :
    source.Keeps start env event := by
  intro branch mem _ holds
  have bounds := branches_bounds mem
  simp only [Branch.Holds, Ancestry.Holds] at holds
  omega

variable {left right : Source}

theorem keeps_seq {start : Nat} :
    (seq left right).Keeps start env event ↔ left.Keeps start env event ∧
      right.Keeps (start + left.eventCount) env event :=
  forall_mem_append

theorem keeps_par {start : Nat} :
    (par left right).Keeps start env event ↔ (seq left right).Keeps start env event :=
  forall_mem_cons.trans (and_iff_right nofun)

theorem keeps_route {resolver : Option UInt16} {start : Nat}
    (inside : start ≤ event ∧ event < start + left.eventCount + right.eventCount) :
    (route left right resolver).Keeps start env event ↔
      env (routeScope start left right) = (routeScope start left right).armAt event ∧
        (seq left right).Keeps start env event :=
  forall_mem_cons.trans
    (and_congr_left' ⟨fun keeps => keeps rfl inside, fun isArm _ _ => isArm⟩)

/-- An event is present exactly when every route around it takes its arm. -/
theorem mem_positions_iff {source : Source} {start : Nat} :
    event ∈ source.positions start env ↔ (start ≤ event ∧ event < start + source.eventCount) ∧
        source.Keeps start env event := by
  have terms : ∀ {left right : Source} {start : Nat}, (event ∈ left.positions start env ↔
        (start ≤ event ∧ event < start + left.eventCount) ∧ left.Keeps start env event) →
      (event ∈ right.positions (start + left.eventCount) env ↔ (start + left.eventCount ≤ event ∧
            event < start + left.eventCount + right.eventCount) ∧
          right.Keeps (start + left.eventCount) env event) →
      (event ∈ (seq left right).positions start env ↔
        (start ≤ event ∧ event < start + (seq left right).eventCount) ∧
          (seq left right).Keeps start env event) := by
    intro left right start onLeft onRight
    rw [positions_seq, mem_append, onLeft, onRight, keeps_seq, eventCount]
    constructor
    · rintro (⟨inLeft, keeps⟩ | ⟨inRight, keeps⟩)
      · exact ⟨by omega, keeps, keeps_of_outside (by omega)⟩
      · exact ⟨by omega, keeps_of_outside (by omega), keeps⟩
    · rintro ⟨inside, leftKeeps, rightKeeps⟩
      rcases Nat.lt_or_ge event (start + left.eventCount) with inLeft | inRight
      · exact .inl ⟨⟨inside.1, inLeft⟩, leftKeeps⟩
      · exact .inr ⟨by omega, rightKeeps⟩
  induction source generalizing start with
  | send message =>
    constructor
    · intro mem
      obtain rfl : event = start := mem_singleton.mp mem
      exact ⟨⟨le_rfl, Nat.lt_succ_self _⟩, forall_mem_nil _⟩
    · rintro ⟨inside, _⟩
      rw [eventCount] at inside
      obtain rfl : event = start := by omega
      exact mem_singleton_self _
  | seq left right hypLeft hypRight => exact terms hypLeft hypRight
  | par left right hypLeft hypRight =>
    rw [keeps_par]
    exact terms hypLeft hypRight
  | route left right resolver hypLeft hypRight =>
    rw [eventCount, ← Nat.add_assoc]
    constructor
    · intro mem
      cases chosen : env (routeScope start left right) with
      | left =>
        rw [positions_route_left chosen] at mem
        replace mem := hypLeft.mp mem
        have inside : start ≤ event ∧ event < start + left.eventCount + right.eventCount := by omega
        refine ⟨inside, (keeps_route inside).mpr ⟨?_, keeps_seq.mpr ⟨mem.2,
          keeps_of_outside (by omega)⟩⟩⟩
        rw [chosen, Scope.armAt_left _ mem.1.2]
      | right =>
        rw [positions_route_right chosen] at mem
        replace mem := hypRight.mp mem
        have inside : start ≤ event ∧ event < start + left.eventCount + right.eventCount := by omega
        refine ⟨inside, (keeps_route inside).mpr ⟨?_, keeps_seq.mpr
          ⟨keeps_of_outside (by omega), mem.2⟩⟩⟩
        rw [chosen, Scope.armAt_right _ mem.1.1]
    · rintro ⟨inside, keeps⟩
      obtain ⟨chosen, keeps⟩ := (keeps_route inside).mp keeps
      rw [keeps_seq] at keeps
      rcases Nat.lt_or_ge event (start + left.eventCount) with inLeft | inRight
      · rw [Scope.armAt_left _ inLeft] at chosen
        rw [positions_route_left chosen]
        exact hypLeft.mpr ⟨⟨inside.1, inLeft⟩, keeps.1⟩
      · rw [Scope.armAt_right _ inRight] at chosen
        rw [positions_route_right chosen]
        exact hypRight.mpr ⟨⟨inRight, inside.2⟩, keeps.2⟩
  | roll body hypBody => exact hypBody

/-! ### Guarded candidates -/

/-- Every choice that keeps the candidate, if it is in the subtree, has a guard in the subtree. -/
def Guarded (source : Source) (start : Nat) (guard : Nat → Prop) (candidate : Nat) : Prop :=
  ∀ assignment, (start ≤ candidate → candidate < start + source.eventCount →
      candidate ∈ source.positions start assignment) →
    ∃ event ∈ source.positions start assignment, guard event

variable {left right body : Source} {start : Nat} {guard : Nat → Prop} {candidate : Nat}

theorem guarded_send {message : Message} :
    (send message).Guarded start guard candidate ↔ guard start := by
  constructor
  · intro guarded
    obtain ⟨event, mem, isGuard⟩ := guarded (fun _ => .left) fun fromStart before => by
      rw [positions, presentEvents, map_singleton, mem_singleton]
      rw [eventCount] at before
      omega
    obtain rfl : event = start := mem_singleton.mp mem
    exact isGuard
  · intro isGuard env _
    exact ⟨start, mem_singleton_self _, isGuard⟩

theorem guarded_seq : (seq left right).Guarded start guard candidate ↔
    left.Guarded start guard candidate ∨
      right.Guarded (start + left.eventCount) guard candidate := by
  constructor
  · intro guarded
    by_contra neither
    rw [not_or, Guarded, Guarded] at neither
    push Not at neither
    obtain ⟨⟨first, firstKeeps, firstFree⟩, second, secondKeeps, secondFree⟩ := neither
    obtain ⟨joint, onLeft, onRight⟩ := exists_joint_assignment left right start first second
    obtain ⟨event, mem, isGuard⟩ := guarded joint fun fromStart before => by
      rw [positions_seq, mem_append, onLeft, onRight]
      rw [eventCount] at before
      rcases Nat.lt_or_ge candidate (start + left.eventCount) with inLeft | inRight
      · exact .inl (firstKeeps fromStart inLeft)
      · exact .inr (secondKeeps inRight (by omega))
    rw [positions_seq, mem_append, onLeft, onRight] at mem
    exact mem.elim (fun inLeft => firstFree event inLeft isGuard)
      fun inRight => secondFree event inRight isGuard
  · rintro (onLeft | onRight) env keeps
    · obtain ⟨event, mem, isGuard⟩ := onLeft env fun fromStart before =>
        mem_positions_seq_left (keeps fromStart (by rw [eventCount]; omega)) before
      exact ⟨event, by rw [positions_seq]; exact mem_append_left _ mem, isGuard⟩
    · obtain ⟨event, mem, isGuard⟩ := onRight env fun fromStart before =>
        mem_positions_seq_right (keeps (by omega) (by rw [eventCount]; omega)) fromStart
      exact ⟨event, by rw [positions_seq]; exact mem_append_right _ mem, isGuard⟩

theorem guarded_par : (par left right).Guarded start guard candidate ↔
    left.Guarded start guard candidate ∨ right.Guarded (start + left.eventCount) guard candidate :=
  guarded_seq

theorem guarded_roll :
    (roll body).Guarded start guard candidate ↔ body.Guarded start guard candidate :=
  Iff.rfl

variable {resolver : Option UInt16}

/-- A route that is not around the candidate needs a guard on both arms. -/
theorem guarded_route_of_outside
    (outside : ¬ (start ≤ candidate ∧ candidate < start + (route left right resolver).eventCount)) :
    (route left right resolver).Guarded start guard candidate ↔ left.Guarded start guard candidate ∧
        right.Guarded (start + left.eventCount) guard candidate := by
  rw [eventCount] at outside
  constructor
  · intro guarded
    refine ⟨fun env _ => ?_, fun env _ => ?_⟩
    · obtain ⟨chosen, isArm, onLeft, _⟩ := exists_arm_assignment left right start env .left
      rw [← onLeft, ← positions_route_left isArm]
      exact guarded chosen fun fromStart before => absurd ⟨fromStart, before⟩ outside
    · obtain ⟨chosen, isArm, _, onRight⟩ := exists_arm_assignment left right start env .right
      rw [← onRight, ← positions_route_right isArm]
      exact guarded chosen fun fromStart before => absurd ⟨fromStart, before⟩ outside
  · rintro ⟨onLeft, onRight⟩ env _
    cases chosen : env (routeScope start left right) with
    | left =>
      rw [positions_route_left chosen]
      exact onLeft env fun fromStart before => by omega
    | right =>
      rw [positions_route_right chosen]
      exact onRight env fun fromStart before => by omega

theorem guarded_route_of_left (inLeft : start ≤ candidate ∧ candidate < start + left.eventCount) :
    (route left right resolver).Guarded start guard candidate ↔
      left.Guarded start guard candidate := by
  constructor
  · intro guarded env keeps
    obtain ⟨chosen, isArm, onLeft, _⟩ := exists_arm_assignment left right start env .left
    rw [← onLeft, ← positions_route_left isArm] at keeps ⊢
    exact guarded chosen fun _ _ => keeps inLeft.1 inLeft.2
  · intro guarded env keeps
    obtain ⟨chosen, mem⟩ := mem_positions_route_left
      (keeps inLeft.1 (by rw [eventCount]; omega)) inLeft.2
    rw [positions_route_left chosen]
    exact guarded env fun _ _ => mem

theorem guarded_route_of_right (inRight : start + left.eventCount ≤ candidate ∧
      candidate < start + left.eventCount + right.eventCount) :
    (route left right resolver).Guarded start guard candidate ↔
      right.Guarded (start + left.eventCount) guard candidate := by
  constructor
  · intro guarded env keeps
    obtain ⟨chosen, isArm, _, onRight⟩ := exists_arm_assignment left right start env .right
    rw [← onRight, ← positions_route_right isArm] at keeps ⊢
    exact guarded chosen fun _ _ => keeps inRight.1 inRight.2
  · intro guarded env keeps
    obtain ⟨chosen, mem⟩ := mem_positions_route_right
      (keeps (by omega) (by rw [eventCount]; omega)) inRight.1
    rw [positions_route_right chosen]
    exact guarded env fun _ _ => mem

/-- A subtree without guards does not guard. -/
theorem not_guarded_of_forall_not {source : Source}
    (free : ∀ event, start ≤ event → event < start + source.eventCount → ¬ guard event)
    (outside : ¬ (start ≤ candidate ∧ candidate < start + source.eventCount)) :
    ¬ source.Guarded start guard candidate := by
  intro guarded
  obtain ⟨event, mem, isGuard⟩ := guarded (fun _ => .left)
    fun fromStart before => absurd ⟨fromStart, before⟩ outside
  have bounds := positions_bounds mem
  exact free event bounds.1 bounds.2 isGuard

/-! ### The outermost branches -/

/-- The events of a subtree outside its branches. -/
def topEvents : Source → Nat → List Nat
  | send _, start => [start]
  | seq left right, start => left.topEvents start ++ right.topEvents (start + left.eventCount)
  | par _ _, _ | route _ _ _, _ => []
  | roll body, start => body.topEvents start

/-- The outermost branches of a subtree. -/
def topBranches : Source → Nat → List Branch
  | send _, _ => []
  | seq left right, start => left.topBranches start ++ right.topBranches (start + left.eventCount)
  | par left right, start => [⟨.parallel, start, left, right⟩]
  | route left right _, start => [⟨.route, start, left, right⟩]
  | roll body, start => body.topBranches start

theorem mem_topEvents_iff {source : Source} {start : Nat} :
    event ∈ source.topEvents start ↔ (start ≤ event ∧ event < start + source.eventCount) ∧
      ∀ branch ∈ source.branches start, ¬ branch.Holds event := by
  induction source generalizing start with
  | send message =>
    rw [topEvents, mem_singleton, eventCount]
    exact ⟨fun same => ⟨by omega, forall_mem_nil _⟩, fun both => by omega⟩
  | seq left right hypLeft hypRight =>
    have free : ∀ {part : Source} {first : Nat},
        ¬ (first ≤ event ∧ event < first + part.eventCount) →
        ∀ branch ∈ part.branches first, ¬ branch.Holds event := by
      intro part first outside branch mem holds
      have bounds := branches_bounds mem
      simp only [Branch.Holds, Ancestry.Holds] at holds
      omega
    rw [topEvents, branches, mem_append, forall_mem_append, eventCount]
    constructor
    · rintro (inLeft | inRight)
      · obtain ⟨inside, isFree⟩ := hypLeft.mp inLeft
        exact ⟨by omega, isFree, free (by omega)⟩
      · obtain ⟨inside, isFree⟩ := hypRight.mp inRight
        exact ⟨by omega, free (by omega), isFree⟩
    · rintro ⟨inside, leftFree, rightFree⟩
      rcases Nat.lt_or_ge event (start + left.eventCount) with inLeft | inRight
      · exact .inl (hypLeft.mpr ⟨⟨inside.1, inLeft⟩, leftFree⟩)
      · exact .inr (hypRight.mpr ⟨by omega, rightFree⟩)
  | par left right _ _ | route left right resolver _ _ =>
    refine iff_of_false not_mem_nil ?_
    rintro ⟨inside, isFree⟩
    rw [eventCount, ← Nat.add_assoc] at inside
    exact isFree _ mem_cons_self inside
  | roll body hypBody => exact hypBody

/-- A branch is outermost when no branch in front of it is around it. -/
theorem mem_topBranches_iff {source : Source} {start : Nat} :
    branch ∈ source.topBranches start ↔ ∃ before after,
      source.branches start = before ++ branch :: after ∧
        ∀ other ∈ before, ¬ other.Holds branch.start := by
  induction source generalizing start with
  | send message =>
    refine iff_of_false not_mem_nil ?_
    rintro ⟨before, after, isCut, _⟩
    exact append_ne_nil_of_right_ne_nil _ (cons_ne_nil _ _) isCut.symm
  | seq left right hypLeft hypRight =>
    rw [topBranches, branches, mem_append]
    constructor
    · rintro (inLeft | inRight)
      · obtain ⟨before, after, isCut, isFree⟩ := hypLeft.mp inLeft
        exact ⟨before, after ++ right.branches _, by rw [isCut, append_assoc]; rfl, isFree⟩
      · obtain ⟨before, after, isCut, isFree⟩ := hypRight.mp inRight
        refine ⟨left.branches start ++ before, after, by rw [isCut, append_assoc],
          forall_mem_append.mpr ⟨fun other mem holds => ?_, isFree⟩⟩
        have bounds := branches_bounds mem
        have inside : branch ∈ right.branches (start + left.eventCount) := by
          rw [isCut]
          exact mem_append_right _ mem_cons_self
        have branchBounds := branches_bounds inside
        simp only [Branch.Holds, Ancestry.Holds] at holds
        omega
    · rintro ⟨before, after, isCut, isFree⟩
      rcases append_eq_append_cons isCut with ⟨rest, inLeft⟩ | ⟨skipped, rfl, inRight⟩
      · exact .inl (hypLeft.mpr ⟨before, rest, inLeft, isFree⟩)
      · exact .inr (hypRight.mpr ⟨skipped, after, inRight, (forall_mem_append.mp isFree).2⟩)
  | par left right _ _ | route left right resolver _ _ =>
    rw [topBranches, mem_singleton]
    constructor
    · rintro rfl
      exact ⟨[], _, rfl, forall_mem_nil _⟩
    · rintro ⟨before, after, isCut, isFree⟩
      cases before with
      | nil => exact (List.cons.inj isCut).1.symm
      | cons first before =>
        obtain ⟨rfl, inArms⟩ := List.cons.inj isCut
        have inside : branch ∈ (seq left right).branches start := by
          rw [branches, inArms]
          exact mem_append_right _ mem_cons_self
        have bounds := branches_bounds inside
        have isSplit := branch.start_lt_split
        have isStop := branch.split_lt_stop
        rw [eventCount, ← Nat.add_assoc] at bounds
        exact absurd ⟨bounds.1, (isSplit.trans isStop).trans_le bounds.2⟩
          (isFree _ mem_cons_self)
  | roll body hypBody => exact hypBody

/-- The branches behind this one are those of its arms, and others behind it. -/
def Follow (branch : Branch) (after : List Branch) : Prop :=
  ∃ back, after = branch.left.branches branch.start ++
      (branch.right.branches branch.split ++ back) ∧
    ∀ other ∈ back, branch.stop ≤ other.start

theorem Follow.append {source : Source} {start : Nat} {front after rest : List Branch}
    (follow : Follow branch after) (isCut : source.branches start = front ++ branch :: after)
    (behind : ∀ other ∈ rest, start + source.eventCount ≤ other.start) :
    Follow branch (after ++ rest) := by
  obtain ⟨back, rfl, isBack⟩ := follow
  refine ⟨back ++ rest, by simp only [append_assoc], ?_⟩
  have bounds := branches_bounds (show branch ∈ source.branches start by
    rw [isCut]
    exact mem_append_right _ mem_cons_self)
  exact forall_mem_append.mpr ⟨isBack, fun other mem =>
    bounds.2.trans (behind other mem)⟩

/-- Every branch is followed by the branches of its arms. -/
theorem branches_follow {source : Source} {start : Nat} {front after : List Branch}
    (isCut : source.branches start = front ++ branch :: after) : Follow branch after := by
  have terms : ∀ {left right : Source} {start : Nat} {front after : List Branch},
      (∀ {start : Nat} {front after : List Branch},
        left.branches start = front ++ branch :: after → Follow branch after) →
      (∀ {start : Nat} {front after : List Branch},
        right.branches start = front ++ branch :: after → Follow branch after) →
      left.branches start ++ right.branches (start + left.eventCount) =
        front ++ branch :: after → Follow branch after := by
    intro left right start front after onLeft onRight isCut
    rcases append_eq_append_cons isCut with ⟨rest, inLeft⟩ | ⟨skipped, _, inRight⟩
    · rw [inLeft, append_assoc, cons_append, append_cancel_left_eq] at isCut
      rw [← (List.cons.inj isCut).2]
      exact (onLeft inLeft).append inLeft fun other mem => (branches_bounds mem).1
    · exact onRight inRight
  induction source generalizing start front after with
  | send message =>
    exact absurd isCut.symm (append_ne_nil_of_right_ne_nil _ (cons_ne_nil _ _))
  | seq left right hypLeft hypRight => exact terms hypLeft hypRight isCut
  | par left right hypLeft hypRight
  | route left right resolver hypLeft hypRight =>
    cases front with
    | nil =>
      obtain ⟨rfl, rfl⟩ := List.cons.inj isCut
      exact ⟨[], by rw [append_nil]; rfl, nofun⟩
    | cons first front => exact terms hypLeft hypRight (List.cons.inj isCut).2
  | roll body hypBody => exact hypBody isCut

end Source

/-! ### Guarded branches -/

namespace Branch

/-- The branch as a source. -/
def source (branch : Branch) : Source :=
  match branch.kind with
  | .route => .route branch.left branch.right none
  | .parallel | .roll => .par branch.left branch.right

/-- The branch keeps no choice with the candidate free of guards. -/
def Guarded (branch : Branch) (guard : Nat → Prop) (candidate : Nat) : Prop :=
  branch.source.Guarded branch.start guard candidate

def arm (branch : Branch) (inLeft : Bool) : Source := if inLeft then branch.left else branch.right

def armStart (branch : Branch) (inLeft : Bool) : Nat :=
  if inLeft then branch.start else branch.split

variable {branch : Branch} {guard : Nat → Prop} {candidate : Nat}

/-- The arm of the candidate guards alone, when no guard is in the other arm. -/
theorem guarded_iff_of_holds (holds : branch.Holds candidate) (together : ∀ event, guard event →
      ¬ branch.Splits event candidate ∧ ¬ branch.Splits candidate event) :
    branch.Guarded guard candidate ↔ (branch.arm (candidate < branch.split)).Guarded
      (branch.armStart (candidate < branch.split)) guard candidate := by
  obtain ⟨kind, start, left, right⟩ := branch
  unfold Guarded source arm armStart split
  dsimp only
  by_cases inLeft : candidate < start + left.eventCount
  · rw [decide_eq_true inLeft, if_pos rfl, if_pos rfl]
    have rightFree : ¬ right.Guarded (start + left.eventCount) guard candidate :=
      Source.not_guarded_of_forall_not (fun event fromSplit before isGuard =>
        (together event isGuard).2 ⟨⟨holds.1, inLeft⟩, fromSplit, before⟩) (by omega)
    cases kind with
    | route => exact Source.guarded_route_of_left ⟨holds.1, inLeft⟩
    | parallel | roll => exact Source.guarded_par.trans (or_iff_left rightFree)
  · rw [decide_eq_false inLeft, if_neg Bool.false_ne_true, if_neg Bool.false_ne_true]
    have leftFree : ¬ left.Guarded start guard candidate :=
      Source.not_guarded_of_forall_not (fun event fromStart before isGuard =>
        (together event isGuard).1 ⟨⟨fromStart, before⟩, Nat.not_lt.mp inLeft, holds.2⟩)
        (by omega)
    cases kind with
    | route => exact Source.guarded_route_of_right ⟨Nat.not_lt.mp inLeft, holds.2⟩
    | parallel | roll => exact Source.guarded_par.trans (or_iff_right leftFree)

/-- Away from the candidate a route needs both of its arms and a parallel one of them. -/
theorem guarded_iff_of_not_holds (notHolds : ¬ branch.Holds candidate) :
    branch.Guarded guard candidate ↔ if branch.kind = .route then
        (branch.arm true).Guarded (branch.armStart true) guard candidate ∧
          (branch.arm false).Guarded (branch.armStart false) guard candidate
      else (branch.arm true).Guarded (branch.armStart true) guard candidate ∨
        (branch.arm false).Guarded (branch.armStart false) guard candidate := by
  obtain ⟨kind, start, left, right⟩ := branch
  cases kind with
  | route =>
    refine Source.guarded_route_of_outside ?_
    rwa [Source.eventCount, ← Nat.add_assoc]
  | parallel | roll => exact Source.guarded_par

end Branch

/-- A subtree guards with an event outside its branches or with an outermost branch. -/
theorem Source.guarded_iff_tops {source : Source} {start : Nat} {guard : Nat → Prop}
    {candidate : Nat} :
    source.Guarded start guard candidate ↔ (∃ event ∈ source.topEvents start, guard event) ∨
      ∃ branch ∈ source.topBranches start, branch.Guarded guard candidate := by
  induction source generalizing start with
  | send message =>
    rw [guarded_send]
    simp only [topEvents, topBranches, mem_singleton, exists_eq_left, not_mem_nil,
      false_and, exists_false, or_false]
  | seq left right hypLeft hypRight =>
    rw [guarded_seq, topEvents, topBranches]
    refine (or_congr hypLeft hypRight).trans ?_
    simp only [mem_append, or_and_right, exists_or]
    exact or_or_or_comm
  | par left right _ _ | route left right resolver _ _ =>
    simp only [topEvents, topBranches, mem_singleton, exists_eq_left, not_mem_nil,
      false_and, exists_false, false_or]
    exact Iff.rfl
  | roll body hypBody => exact hypBody

/-! ### The forks of the ancestry -/

/-- The bit of an arm. -/
def GuardedArms.side (arms : GuardedArms) (inLeft : Bool) : Bool :=
  if inLeft then arms.left else arms.right

theorem GuardedArms.side_mark (arms : GuardedArms) (marked inLeft : Bool) :
    (arms.mark marked).side inLeft = (arms.side inLeft || decide (marked = inLeft)) := by
  cases marked <;> cases inLeft <;> simp [mark, side]

namespace BranchPaths

variable {paths : BranchPaths} {source : Source} {start : Nat}
  (isOf : paths.Of (source.branches start))

include isOf

section

variable {front after : List Branch} {branch : Branch}
  (isCut : source.branches start = front ++ branch :: after)

include isCut

/-- The events that point to a fork are the events of its arms outside the branches there. -/
theorem Of.eventForks_eq_iff {event : Nat} {inLeft : Bool} :
    paths.eventForks event = some front.length ∧ decide (event < branch.split) = inLeft ↔
      event ∈ (branch.arm inLeft).topEvents (branch.armStart inLeft) := by
  obtain ⟨back, rfl, behind⟩ := Source.branches_follow isCut
  have isSplit := branch.start_lt_split
  have isStop := branch.split_lt_stop
  rw [isOf.painted.seen, isCut, Ancestry.head?_holders_eq_length, forall_mem_append,
    forall_mem_append, Source.mem_topEvents_iff]
  have backFree : branch.Holds event → ∀ other ∈ back, ¬ other.Holds event := by
    intro holds other mem otherHolds
    have isBehind := behind other mem
    simp only [Branch.Holds, Ancestry.Holds] at holds otherHolds
    omega
  cases inLeft with
  | true =>
    have rightFree : event < branch.split →
        ∀ other ∈ branch.right.branches branch.split, ¬ other.Holds event := by
      intro before other mem holds
      have bounds := Source.branches_bounds mem
      simp only [Branch.Holds, Ancestry.Holds] at holds
      omega
    rw [decide_eq_true_eq]
    constructor
    · rintro ⟨⟨holds, free, _⟩, before⟩
      exact ⟨⟨holds.1, before⟩, free⟩
    · rintro ⟨⟨fromStart, before⟩, free⟩
      have holds : branch.Holds event := ⟨fromStart, before.trans isStop⟩
      exact ⟨⟨holds, free, rightFree before, backFree holds⟩, before⟩
  | false =>
    have leftFree : branch.split ≤ event →
        ∀ other ∈ branch.left.branches branch.start, ¬ other.Holds event := by
      intro fromSplit other mem holds
      have bounds := Source.branches_bounds mem
      simp only [Branch.Holds, Ancestry.Holds] at holds
      have isEnd : branch.start + branch.left.eventCount = branch.split := rfl
      omega
    rw [decide_eq_false_iff_not, Nat.not_lt]
    constructor
    · rintro ⟨⟨holds, _, free, _⟩, fromSplit⟩
      exact ⟨⟨fromSplit, holds.2⟩, free⟩
    · rintro ⟨⟨fromSplit, before⟩, free⟩
      have holds : branch.Holds event := ⟨isSplit.le.trans fromSplit, before⟩
      exact ⟨⟨holds, leftFree fromSplit, free, backFree holds⟩, fromSplit⟩

/-- A branch that lies in an arm as an outermost one has the fork as its parent. -/
theorem Of.parents_of_cut {middle rest : List Branch} {inner : Branch}
    (isAfter : after = middle ++ inner :: rest) (holds : branch.Holds inner.start)
    (free : ∀ other ∈ middle, ¬ other.Holds inner.start) :
    ∃ index : Nat, (source.branches start)[index]? = some inner ∧
      paths.parents[index]? = some (some front.length) := by
  rw [isAfter] at isCut
  refine ⟨front.length + 1 + middle.length, ?_, (isOf.painted.parent_eq_length isCut).mpr
    ⟨holds, free⟩⟩
  rw [isCut, getElem?_append_right (by omega), Nat.add_assoc, Nat.add_sub_cancel_left,
    Nat.add_comm, getElem?_cons_succ, getElem?_append_right le_rfl, Nat.sub_self,
    getElem?_cons_zero]

/-- The children of a fork are the outermost branches of its arms. -/
theorem Of.parents_eq_iff {inner : Branch} {inLeft : Bool} :
    (∃ index : Nat, (source.branches start)[index]? = some inner ∧
        paths.parents[index]? = some (some front.length)) ∧
      decide (inner.split < branch.split) = inLeft ↔
      inner ∈ (branch.arm inLeft).topBranches (branch.armStart inLeft) := by
  obtain ⟨back, isAfter, behind⟩ := Source.branches_follow isCut
  have isSplit := branch.start_lt_split
  have isStop := branch.split_lt_stop
  have innerSplit := inner.start_lt_split
  have innerStop := inner.split_lt_stop
  rw [Source.mem_topBranches_iff]
  constructor
  · rintro ⟨⟨index, isInner, isParent⟩, isSide⟩
    have inFront := isOf.painted.parent_lt isParent
    obtain ⟨distance, rfl⟩ := Nat.exists_eq_add_of_lt inFront
    rw [isCut, getElem?_append_right (by omega), Nat.add_assoc, Nat.add_sub_cancel_left,
      getElem?_cons_succ] at isInner
    obtain ⟨middle, rest, isMiddle, rfl⟩ := exists_cut_of_getElem? isInner
    rw [isMiddle] at isCut
    rw [Nat.add_right_comm] at isParent
    obtain ⟨holds, free⟩ := (isOf.painted.parent_eq_length isCut).mp isParent
    rw [isAfter] at isMiddle
    rcases append_eq_append_cons isMiddle with ⟨rest, inArm⟩ | ⟨skipped, rfl, inRest⟩
    · have bounds := Source.branches_bounds (show inner ∈ branch.left.branches branch.start by
        rw [inArm]
        exact mem_append_right _ mem_cons_self)
      rw [← isSide, decide_eq_true (show inner.split < branch.split from
        innerStop.trans_le bounds.2)]
      exact ⟨middle, rest, inArm, free⟩
    · rcases append_eq_append_cons inRest with ⟨rest, inArm⟩ | ⟨others, rfl, inBack⟩
      · have bounds := Source.branches_bounds (show inner ∈ branch.right.branches branch.split by
          rw [inArm]
          exact mem_append_right _ mem_cons_self)
        rw [← isSide, decide_eq_false (show ¬ inner.split < branch.split by omega)]
        exact ⟨skipped, rest, inArm, (forall_mem_append.mp free).2⟩
      · have isBehind := behind inner (by
          rw [inBack]
          exact mem_append_right _ mem_cons_self)
        exact absurd holds.2 (Nat.not_lt.mpr isBehind)
  · rintro ⟨before, rest, inArm, free⟩
    have mem : inner ∈ (branch.arm inLeft).branches (branch.armStart inLeft) := by
      rw [inArm]
      exact mem_append_right _ mem_cons_self
    have bounds := Source.branches_bounds mem
    cases inLeft with
    | true =>
      have inFront : inner.split < branch.split := innerStop.trans_le bounds.2
      have isMiddle : after =
          before ++ inner :: (rest ++ (branch.right.branches branch.split ++ back)) := by
        rw [isAfter, show branch.left.branches branch.start = before ++ inner :: rest from inArm,
          append_assoc, cons_append]
      exact ⟨isOf.parents_of_cut isCut isMiddle ⟨bounds.1, by omega⟩ free, decide_eq_true inFront⟩
    | false =>
      have fromSplit : branch.split ≤ inner.start := bounds.1
      have beforeStop : inner.stop ≤ branch.stop := bounds.2
      have isMiddle : after =
          (branch.left.branches branch.start ++ before) ++ inner :: (rest ++ back) := by
        rw [isAfter, show branch.right.branches branch.split = before ++ inner :: rest from inArm]
        simp only [append_assoc, cons_append]
      refine ⟨isOf.parents_of_cut isCut isMiddle ⟨by omega, by omega⟩
        (forall_mem_append.mpr ⟨?_, free⟩), decide_eq_false (by omega)⟩
      intro other isOther holds
      have otherBounds := Source.branches_bounds isOther
      have isEnd : branch.start + branch.left.eventCount = branch.split := rfl
      simp only [Branch.Holds, Ancestry.Holds] at holds
      omega

end

/-- The forks without a parent are the outermost branches. -/
theorem Of.parents_eq_none_iff {branch : Branch} :
    (∃ index : Nat, (source.branches start)[index]? = some branch ∧
        paths.parents[index]? = some none) ↔ branch ∈ source.topBranches start := by
  rw [Source.mem_topBranches_iff]
  constructor
  · rintro ⟨index, isBranch, isParent⟩
    rw [isOf.painted.parent index branch isBranch, Option.some.injEq,
      Ancestry.head?_holders_eq_none] at isParent
    obtain ⟨before, after, isCut, rfl⟩ := exists_cut_of_getElem? isBranch
    rw [isCut, take_left] at isParent
    exact ⟨before, after, isCut, isParent⟩
  · rintro ⟨before, after, isCut, free⟩
    have isBranch : (source.branches start)[before.length]? = some branch := by
      rw [isCut, getElem?_append_right le_rfl, Nat.sub_self, getElem?_cons_zero]
    refine ⟨before.length, isBranch, ?_⟩
    rw [isOf.painted.parent _ branch isBranch, Option.some.injEq,
      Ancestry.head?_holders_eq_none, isCut, take_left]
    exact free

section

variable (guard : Nat → Prop) (candidate : Nat)

/-- The bits of the forks, when those from an index on are done: an arm has a guard outside its
branches or a guarded outermost branch that is done. -/
def Recorded (paths : BranchPaths) (branches : List Branch) (guard : Nat → Prop) (candidate : Nat)
    (index : Nat) (arms : Nat → GuardedArms) : Prop :=
  ∀ (outer : Nat) (branch : Branch), branches[outer]? = some branch → ∀ inLeft,
    (arms outer).side inLeft = true ↔
      (∃ event, guard event ∧ paths.eventForks event = some outer ∧
        decide (event < branch.split) = inLeft) ∨
      ∃ (inner : Nat) (child : Branch), index ≤ inner ∧ branches[inner]? = some child ∧
        paths.parents[inner]? = some (some outer) ∧
        decide (child.split < branch.split) = inLeft ∧ child.Guarded guard candidate

variable {guard candidate} {arms : Nat → GuardedArms} {index : Nat} {branch : Branch}

/-- When the forks behind it are done, the bit of an arm says whether the arm is guarded. -/
theorem Of.side_iff_guarded
    (recorded : Recorded paths (source.branches start) guard candidate (index + 1) arms)
    (isBranch : (source.branches start)[index]? = some branch) (inLeft : Bool) :
    (arms index).side inLeft = true ↔
      (branch.arm inLeft).Guarded (branch.armStart inLeft) guard candidate := by
  obtain ⟨front, after, isCut, rfl⟩ := exists_cut_of_getElem? isBranch
  rw [recorded front.length branch isBranch inLeft, Source.guarded_iff_tops]
  refine or_congr ?_ ?_
  · refine exists_congr fun event => ?_
    rw [isOf.eventForks_eq_iff isCut, and_comm]
  · constructor
    · rintro ⟨inner, child, _, isChild, isParent, isSide, guarded⟩
      exact ⟨child, (isOf.parents_eq_iff isCut).mp ⟨⟨inner, isChild, isParent⟩, isSide⟩, guarded⟩
    · rintro ⟨child, mem, guarded⟩
      obtain ⟨⟨inner, isChild, isParent⟩, isSide⟩ := (isOf.parents_eq_iff isCut).mpr mem
      exact ⟨inner, child, isOf.painted.parent_lt isParent, isChild, isParent, isSide, guarded⟩

/-- A fork is covered exactly when its branch is guarded. -/
theorem Of.covered_iff {fork : Fork}
    (recorded : Recorded paths (source.branches start) guard candidate (index + 1) arms)
    (isBranch : (source.branches start)[index]? = some branch) (isSplit : fork.split = branch.split)
    (isKind : fork.kind = branch.kind)
    (together : ∀ event, guard event → ∀ branch ∈ source.branches start,
      ¬ branch.Splits event candidate ∧ ¬ branch.Splits candidate event) :
    covered fork (arms index) (decide (branch.Holds candidate)) candidate = true ↔
      branch.Guarded guard candidate := by
  have sides := isOf.side_iff_guarded recorded isBranch
  unfold covered
  rw [isSplit, isKind]
  by_cases holds : branch.Holds candidate
  · rw [if_pos (decide_eq_true holds), branch.guarded_iff_of_holds holds fun event isGuard =>
      together event isGuard branch (mem_of_getElem? isBranch), ← sides]
    simp only [GuardedArms.side, decide_eq_true_eq]
  · rw [if_neg (by rw [decide_eq_true_eq]; exact holds), branch.guarded_iff_of_not_holds holds]
    simp only [← sides, GuardedArms.side]
    split
    · rw [Bool.and_eq_true]
      rfl
    · rw [Bool.or_eq_true]
      rfl

omit isOf in
/-- One fork more is done. -/
theorem recorded_step {next : Nat → GuardedArms}
    (recorded : Recorded paths (source.branches start) guard candidate (index + 1) arms)
    (isBranch : (source.branches start)[index]? = some branch)
    (isNext : ∀ (outer : Nat) (around : Branch), (source.branches start)[outer]? = some around →
      ∀ inLeft, (next outer).side inLeft = true ↔ (arms outer).side inLeft = true ∨
        paths.parents[index]? = some (some outer) ∧
          decide (branch.split < around.split) = inLeft ∧ branch.Guarded guard candidate) :
    Recorded paths (source.branches start) guard candidate index next := by
  intro outer around isAround inLeft
  rw [isNext outer around isAround inLeft, recorded outer around isAround inLeft, or_assoc]
  refine or_congr_right ⟨?_, ?_⟩
  · rintro (⟨inner, child, behind, isChild⟩ | isOwn)
    · exact ⟨inner, child, Nat.le_of_succ_le behind, isChild⟩
    · exact ⟨index, branch, le_rfl, isBranch, isOwn⟩
  · rintro ⟨inner, child, behind, isChild, isParent, isSide, guarded⟩
    rcases Nat.eq_or_lt_of_le behind with rfl | later
    · cases isBranch.symm.trans isChild
      exact .inr ⟨isParent, isSide, guarded⟩
    · exact .inl ⟨inner, child, later, isChild, isParent, isSide, guarded⟩

/-- The walk over the forks finds out whether an outermost branch is guarded. -/
theorem Of.guardsFrom_spec (together : ∀ event, guard event → ∀ branch ∈ source.branches start,
      ¬ branch.Splits event candidate ∧ ¬ branch.Splits candidate event)
    (inside : index ≤ (source.branches start).length)
    (recorded : Recorded paths (source.branches start) guard candidate index arms)
    (noneDone : ∀ (later : Nat) (branch : Branch), index ≤ later →
      (source.branches start)[later]? = some branch → paths.parents[later]? = some none →
      ¬ branch.Guarded guard candidate) :
    ∃ answer, paths.guardsFrom candidate index arms = .ok answer ∧ (answer = true ↔
      ∃ branch ∈ source.topBranches start, branch.Guarded guard candidate) := by
  induction index generalizing arms with
  | zero =>
    refine ⟨false, rfl, iff_of_false Bool.false_ne_true ?_⟩
    rintro ⟨branch, mem, guarded⟩
    obtain ⟨later, isBranch, isTop⟩ := isOf.parents_eq_none_iff.mpr mem
    exact noneDone later branch (Nat.zero_le _) isBranch isTop guarded
  | succ index hyp =>
    have isBranch := getElem?_eq_getElem (show index < (source.branches start).length from inside)
    generalize (source.branches start)[index] = branch at isBranch
    obtain ⟨fork, isFork, isSplit, isKind, isParent⟩ := isOf.forkAt isBranch
    have isCovered := isOf.covered_iff recorded isBranch isSplit isKind together
    rw [guardsFrom, isFork, Run.bind_ok, isOf.encloses_eq isBranch, Run.bind_ok]
    by_cases guarded : branch.Guarded guard candidate
    · rw [if_pos (isCovered.mpr guarded)]
      cases parent : fork.parent with
      | none =>
        rw [parent] at isParent
        exact ⟨true, rfl, iff_of_true rfl ⟨branch, isOf.parents_eq_none_iff.mp
          ⟨index, isBranch, isParent⟩, guarded⟩⟩
      | some outer =>
        rw [parent] at isParent
        have inFront := isOf.painted.parent_lt isParent
        have isOuter := getElem?_eq_getElem
          (show outer < (source.branches start).length by omega)
        generalize (source.branches start)[outer] = around at isOuter
        obtain ⟨outerFork, isOuterFork, outerSplit, _, _⟩ := isOf.forkAt isOuter
        dsimp only
        rw [isOuterFork, Run.bind_ok, isSplit, outerSplit]
        refine hyp (Nat.le_of_succ_le inside)
          (recorded_step recorded isBranch fun place found isFound inLeft => ?_)
          fun later found behind isFound isTop => ?_
        · by_cases same : place = outer
          · subst same
            cases isOuter.symm.trans isFound
            rw [Function.update_self, GuardedArms.side_mark, Bool.or_eq_true, decide_eq_true_eq]
            exact or_congr_right ⟨fun isSide => ⟨isParent, isSide, guarded⟩, fun both => both.2.1⟩
          · rw [Function.update_of_ne same]
            refine (or_iff_left ?_).symm
            rintro ⟨isOther, _⟩
            exact same (Option.some.inj (Option.some.inj (isOther.symm.trans isParent)))
        · rcases Nat.eq_or_lt_of_le behind with rfl | isLater
          · rw [isParent] at isTop
            cases Option.some.inj isTop
          · exact noneDone later found isLater isFound isTop
    · rw [if_neg fun isTrue => guarded (isCovered.mp isTrue)]
      refine hyp (Nat.le_of_succ_le inside)
        (recorded_step recorded isBranch fun place found isFound inLeft =>
          (or_iff_left fun both => guarded both.2.2).symm)
        fun later found behind isFound isTop => ?_
      rcases Nat.eq_or_lt_of_le behind with rfl | isLater
      · cases isBranch.symm.trans isFound
        exact guarded
      · exact noneDone later found isLater isFound isTop

/-- The guards that were recorded decide whether the candidate is guarded, when every guard has
a fork. -/
theorem Of.guardsEveryPath_spec (together : ∀ event, guard event → ∀ branch ∈ source.branches start,
      ¬ branch.Splits event candidate ∧ ¬ branch.Splits candidate event)
    (forked : ∀ event, guard event → paths.eventForks event ≠ none)
    (recorded : Recorded paths (source.branches start) guard candidate paths.forks.length arms) :
    ∃ answer, paths.guardsEveryPath arms candidate = .ok answer ∧
      (answer = true ↔ source.Guarded start guard candidate) := by
  obtain ⟨answer, isAnswer, answers⟩ := isOf.guardsFrom_spec together
    isOf.length_forks.le recorded fun later branch behind isBranch => by
      have inside := (List.getElem?_eq_some_iff.mp isBranch).1
      rw [isOf.length_forks] at behind
      omega
  refine ⟨answer, isAnswer, ?_⟩
  rw [answers, Source.guarded_iff_tops, or_iff_right]
  rintro ⟨event, mem, isGuard⟩
  refine forked event isGuard ?_
  rw [isOf.painted.seen, Ancestry.head?_holders_eq_none]
  exact (Source.mem_topEvents_iff.mp mem).2

end

end BranchPaths

end Hibana
