/-
This file proves what the matching of lanes guarantees.

The two directions of a matching are inverse to each other and every matched
pair is allowed. The search keeps the matching and a stack of right lanes, each
reached through the left lane it is matched with; flipping the stack frees one
left lane after the other and gives it to the right lane below. The search
stops, since every step marks a new left lane or takes a lane off the stack.
-/

import HibanaChoreography.Lowering.LaneMatching

namespace Hibana

open Outcome List

namespace LaneMatching

variable {allows : Nat → Nat → Bool} {leftSpan : Nat}

/-- The matched pairs are allowed, and the two directions are inverse. -/
structure Sound (allows : Nat → Nat → Bool) (leftSpan : Nat) (matching : LaneMatching) : Prop where
  allowed : ∀ right left, matching.rightToLeft right = some left →
    allows right left = true ∧ left < leftSpan
  inverse : ∀ right left, matching.rightToLeft right = some left ↔
    matching.leftToRight left = some right

variable {matching result : LaneMatching} {left free right : Nat} {frame : Frame}
  {earlier frames : List Frame} {seen : Finset Nat}

theorem Sound.injective (sound : Sound allows leftSpan matching) {first second : Nat}
    (isFirst : matching.rightToLeft first = some left)
    (isSecond : matching.rightToLeft second = some left) : first = second := by
  rw [sound.inverse] at isFirst isSecond
  rw [isFirst] at isSecond
  exact Option.some.inj isSecond

theorem sound_empty : Sound allows leftSpan empty where
  allowed := by rintro _ _ ⟨⟩
  inverse := fun _ _ => iff_of_false (by rintro ⟨⟩) (by rintro ⟨⟩)

/-! ### Flipping a path -/

/-- A matching with one left lane taken from its right lane and not yet given to another. -/
structure Pending (allows : Nat → Nat → Bool) (leftSpan : Nat) (matching : LaneMatching)
    (free : Nat) : Prop where
  allowed : ∀ right left, matching.rightToLeft right = some left →
    allows right left = true ∧ left < leftSpan
  forward : ∀ right left, matching.rightToLeft right = some left →
    matching.leftToRight left = some right ∧ left ≠ free
  backward : ∀ right left, left ≠ free → matching.leftToRight left = some right →
    matching.rightToLeft right = some left

theorem Sound.pending (sound : Sound allows leftSpan matching)
    (isFree : matching.leftToRight free = none) : Pending allows leftSpan matching free where
  allowed := sound.allowed
  forward := fun right left isMatched => by
    have isBack := (sound.inverse right left).mp isMatched
    refine ⟨isBack, ?_⟩
    rintro rfl
    rw [isFree] at isBack
    cases isBack
  backward := fun right left _ => (sound.inverse right left).mpr

theorem rightToLeft_assign_self (matching : LaneMatching) (right left : Nat) :
    (matching.assign right left).rightToLeft right = some left := Function.update_self ..

theorem rightToLeft_assign_of_ne (matching : LaneMatching) {other : Nat} (left : Nat)
    (differs : other ≠ right) :
    (matching.assign right left).rightToLeft other = matching.rightToLeft other :=
  Function.update_of_ne differs ..

theorem leftToRight_assign_self (matching : LaneMatching) (right left : Nat) :
    (matching.assign right left).leftToRight left = some right := Function.update_self ..

theorem leftToRight_assign_of_ne (matching : LaneMatching) {other : Nat} (right : Nat)
    (differs : other ≠ left) :
    (matching.assign right left).leftToRight other = matching.leftToRight other :=
  Function.update_of_ne differs ..

section

variable (pending : Pending allows leftSpan matching free) (isAllowed : allows right free = true)
  (inside : free < leftSpan)

include pending isAllowed inside

theorem Pending.allowed_assign (other left : Nat)
    (isMatched : (matching.assign right free).rightToLeft other = some left) :
    allows other left = true ∧ left < leftSpan := by
  rcases eq_or_ne other right with rfl | differs
  · rw [rightToLeft_assign_self] at isMatched
    cases isMatched
    exact ⟨isAllowed, inside⟩
  · rw [rightToLeft_assign_of_ne _ _ differs] at isMatched
    exact pending.allowed other left isMatched

/-- Giving the free left lane to a right lane without one completes the matching. -/
theorem Pending.assign_last (unmatched : matching.rightToLeft right = none) :
    Sound allows leftSpan (matching.assign right free) where
  allowed := pending.allowed_assign isAllowed inside
  inverse := fun other left => by
    rcases eq_or_ne left free with rfl | notFree
    · rw [leftToRight_assign_self]
      rcases eq_or_ne other right with rfl | differs
      · rw [rightToLeft_assign_self]
        exact iff_of_true rfl rfl
      · rw [rightToLeft_assign_of_ne _ _ differs]
        refine iff_of_false (fun isMatched => ?_) fun isRight =>
          differs (Option.some.inj isRight).symm
        exact (pending.forward other left isMatched).2 rfl
    · rw [leftToRight_assign_of_ne _ _ notFree]
      rcases eq_or_ne other right with rfl | differs
      · rw [rightToLeft_assign_self]
        refine iff_of_false (fun isLeft => notFree (Option.some.inj isLeft).symm) fun isBack => ?_
        rw [pending.backward other left notFree isBack] at unmatched
        cases unmatched
      · rw [rightToLeft_assign_of_ne _ _ differs]
        exact ⟨fun isMatched => (pending.forward other left isMatched).1,
          pending.backward other left notFree⟩

/-- Giving the free left lane to a matched right lane frees the lane it was matched with. -/
theorem Pending.assign_next {parent : Nat} (isParent : matching.rightToLeft right = some parent) :
    Pending allows leftSpan (matching.assign right free) parent where
  allowed := pending.allowed_assign isAllowed inside
  forward := fun other left isMatched => by
    have isBack := pending.forward right parent isParent
    rcases eq_or_ne other right with rfl | differs
    · rw [rightToLeft_assign_self] at isMatched
      cases isMatched
      exact ⟨leftToRight_assign_self .., isBack.2.symm⟩
    · rw [rightToLeft_assign_of_ne _ _ differs] at isMatched
      have isForward := pending.forward other left isMatched
      refine ⟨(leftToRight_assign_of_ne _ _ isForward.2).trans isForward.1, ?_⟩
      rintro rfl
      rw [isForward.1] at isBack
      exact differs (Option.some.inj isBack.1)
  backward := fun other left notParent isBack => by
    rcases eq_or_ne left free with rfl | notFree
    · rw [leftToRight_assign_self] at isBack
      cases isBack
      exact rightToLeft_assign_self ..
    · rw [leftToRight_assign_of_ne _ _ notFree] at isBack
      have isMatched := pending.backward other left notFree isBack
      have differs : other ≠ right := by
        rintro rfl
        rw [isMatched] at isParent
        exact notParent (Option.some.inj isParent)
      exact (rightToLeft_assign_of_ne _ _ differs).trans isMatched

end

/-- The stack of a search: every right lane was reached through the left lane it is matched with,
which the right lane below it may take; the lowest right lane is unmatched. -/
structure Path (allows : Nat → Nat → Bool) (leftSpan : Nat) (matching : LaneMatching)
    (frames : List Frame) : Prop where
  matched : ∀ frame ∈ frames, matching.rightToLeft frame.right = frame.parentLeft
  distinct : (frames.map Frame.right).Nodup
  linked : frames.IsChain fun upper lower => ∃ left, upper.parentLeft = some left ∧
    allows lower.right left = true ∧ left < leftSpan
  root : ∀ frame ∈ frames.getLast?, frame.parentLeft = none

/-- The lower part of a stack, after the right lane on top of it has changed. -/
theorem Path.tail {lower : Frame} (path : Path allows leftSpan matching (frame :: lower :: earlier))
    (left : Nat) : Path allows leftSpan (matching.assign frame.right left) (lower :: earlier) where
  matched := fun other mem => by
    have distinct := path.distinct
    rw [map_cons, nodup_cons] at distinct
    rw [rightToLeft_assign_of_ne, path.matched other (mem_cons_of_mem _ mem)]
    intro same
    exact distinct.1 (same ▸ mem_map_of_mem mem)
  distinct := (nodup_cons.mp path.distinct).2
  linked := (isChain_cons_cons.mp path.linked).2
  root := fun other isLast => path.root other (by rwa [getLast?_cons_cons])

/-- Flipping the stack completes the matching, and no other right lane gets a lane. -/
theorem assignPath_sound (path : Path allows leftSpan matching (frame :: frames))
    (pending : Pending allows leftSpan matching free) (isAllowed : allows frame.right free = true)
    (inside : free < leftSpan) :
    ∃ result, assignPath matching free (frame :: frames) = .ok result ∧
      Sound allows leftSpan result ∧
      ∀ other, (∀ onStack ∈ frame :: frames, other ≠ onStack.right) →
        result.rightToLeft other = matching.rightToLeft other := by
  induction frames generalizing matching frame free with
  | nil =>
    have unmatched := path.matched frame mem_cons_self
    rw [path.root frame rfl] at unmatched
    refine ⟨_, rfl, pending.assign_last isAllowed inside unmatched, fun other notOn => ?_⟩
    exact rightToLeft_assign_of_ne _ _ (notOn frame mem_cons_self)
  | cons lower earlier hyp =>
    obtain ⟨parent, isParent, parentAllowed, parentInside⟩ := (isChain_cons_cons.mp path.linked).1
    have isMatched := path.matched frame mem_cons_self
    rw [isParent] at isMatched
    obtain ⟨result, isResult, sound, kept⟩ := hyp (path.tail free)
      (pending.assign_next isAllowed inside isMatched) parentAllowed parentInside
    refine ⟨result, ?_, sound, fun other notOn => ?_⟩
    · simp only [assignPath, isParent]
      exact isResult
    · rw [kept other fun onStack mem => notOn onStack (mem_cons_of_mem _ mem),
        rightToLeft_assign_of_ne _ _ (notOn frame mem_cons_self)]

/-! ### The search -/

theorem selectLeft_spec {nextLeft : Nat}
    (isLeft : selectLeft allows leftSpan seen right nextLeft = some left) :
    left < leftSpan ∧ left ∉ seen ∧ allows right left = true := by
  have mem := mem_of_find?_eq_some isLeft
  have isFound := find?_some isLeft
  rw [decide_eq_true_eq] at isFound
  rw [mem_range'_1] at mem
  exact ⟨by omega, isFound⟩

/-- The right lane behind a left lane that the search has not marked is not on the stack. -/
theorem Path.notMem (path : Path allows leftSpan matching frames)
    (marked : ∀ frame ∈ frames, ∀ parent, frame.parentLeft = some parent → parent ∈ seen)
    {occupant : Nat} (isNew : left ∉ seen) (isMatched : matching.rightToLeft occupant = some left) :
    occupant ∉ frames.map Frame.right := by
  intro mem
  obtain ⟨frame, onStack, rfl⟩ := mem_map.mp mem
  rw [path.matched frame onStack] at isMatched
  exact isNew (marked frame onStack left isMatched)

/-- Going on from a matched left lane puts its right lane on the stack. -/
theorem Path.push (path : Path allows leftSpan matching (frame :: earlier)) {occupant : Nat}
    (next : Nat) (isMatched : matching.rightToLeft occupant = some left)
    (isAllowed : allows frame.right left = true) (inside : left < leftSpan)
    (isNew : occupant ∉ (frame :: earlier).map Frame.right) :
    Path allows leftSpan matching
      (⟨occupant, 0, some left⟩ :: { frame with nextLeft := next } :: earlier) where
  matched := fun other mem => by
    rcases mem_cons.mp mem with rfl | mem
    · exact isMatched
    · rcases mem_cons.mp mem with rfl | mem
      · exact path.matched frame mem_cons_self
      · exact path.matched other (mem_cons_of_mem _ mem)
  distinct := nodup_cons.mpr ⟨isNew, path.distinct⟩
  linked := by
    refine isChain_cons_cons.mpr ⟨⟨left, rfl, isAllowed, inside⟩, ?_⟩
    cases earlier with
    | nil => exact List.IsChain.singleton _
    | cons lower earlier =>
      have linked := isChain_cons_cons.mp path.linked
      exact isChain_cons_cons.mpr linked
  root := fun other isLast => by
    rw [getLast?_cons_cons] at isLast
    cases earlier with
    | nil =>
      cases isLast
      exact path.root frame rfl
    | cons lower earlier =>
      rw [getLast?_cons_cons] at isLast
      exact path.root other (by rwa [getLast?_cons_cons])

/-- Going back takes the right lane off the stack. -/
theorem Path.pop (path : Path allows leftSpan matching (frame :: earlier)) :
    Path allows leftSpan matching earlier where
  matched := fun other mem => path.matched other (mem_cons_of_mem _ mem)
  distinct := (nodup_cons.mp path.distinct).2
  linked := path.linked.of_cons
  root := fun other isLast => by
    cases earlier with
    | nil => cases isLast
    | cons lower earlier => exact path.root other (by rwa [getLast?_cons_cons])

/-- Only the lowest right lane of the stack is unmatched. -/
theorem Path.parent_ne_none (path : Path allows leftSpan matching frames) (mem : frame ∈ frames)
    (isRoot : frame.parentLeft = none) : frames.getLast? = some frame := by
  induction frames with
  | nil => cases mem
  | cons upper earlier hyp =>
    rcases mem_cons.mp mem with rfl | inEarlier
    · cases earlier with
      | nil => rfl
      | cons lower earlier =>
        obtain ⟨left, isLeft, _⟩ := (isChain_cons_cons.mp path.linked).1
        rw [isRoot] at isLeft
        cases isLeft
    · cases earlier with
      | nil => cases inEarlier
      | cons lower earlier =>
        rw [getLast?_cons_cons]
        exact hyp path.pop inEarlier

/-- The stack of a search that starts at an unmatched right lane. -/
theorem path_singleton (unmatched : matching.rightToLeft right = none) :
    Path allows leftSpan matching [⟨right, 0, none⟩] where
  matched := fun frame mem => by
    rw [mem_singleton.mp mem]
    exact unmatched
  distinct := nodup_singleton _
  linked := List.IsChain.singleton _
  root := fun frame isLast => by
    cases isLast
    rfl

end LaneMatching

end Hibana
