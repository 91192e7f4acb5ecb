/-
This file models the predecessor ranges of `g/source/tree.rs`.

The events in front of an event in source order are not one range of positions: a
parallel sibling or another arm of a route lies between them. The source gives the
next contiguous range of predecessors from a lower bound on, and a caller moves the
bound to the end of the range it got. A range holds predecessors only, and no
predecessor lies between the bound and the range, so the ranges list all of them.
-/

import HibanaChoreography.Source.Tree

namespace Hibana

namespace Source

/-- The next contiguous range of positions ordered before the event, from `lower` on. -/
def predecessorRange (source : Source) (event lower : Nat) : Option (Nat × Nat) :=
  if event ≤ lower then none
  else
    match source with
    | send _ => none
    | roll body => body.predecessorRange event lower
    | seq left right =>
      if event < left.eventCount then left.predecessorRange event lower
      else if lower < left.eventCount then some (lower, left.eventCount)
      else
        (right.predecessorRange (event - left.eventCount) (lower - left.eventCount)).map
          fun range => (range.1 + left.eventCount, range.2 + left.eventCount)
    | par left right | route left right _ =>
      if event < left.eventCount then left.predecessorRange event lower
      else
        (right.predecessorRange (event - left.eventCount) (lower - left.eventCount)).map
          fun range => (range.1 + left.eventCount, range.2 + left.eventCount)

/-- What the next range of predecessors says about the positions from the lower bound on. -/
structure NextRange (source : Source) (event lower first stop : Nat) : Prop where
  fromLower : lower ≤ first
  nonempty : first < stop
  inFront : stop ≤ event
  skipped : ∀ position, lower ≤ position → position < first → source.before position event = false
  ordered : ∀ position, first ≤ position → position < stop → source.before position event = true

/-- The answer of a predecessor search is right. -/
def AnswersRange (source : Source) (event lower : Nat) : Option (Nat × Nat) → Prop
  | some range => NextRange source event lower range.1 range.2
  | none => ∀ position, lower ≤ position → source.before position event = false

variable {answer : Option (Nat × Nat)}

theorem AnswersRange.congr {source whole : Source} {event lower : Nat}
    (answers : AnswersRange source event lower answer)
    (same : ∀ position, position < event → whole.before position event =
      source.before position event) : AnswersRange whole event lower answer := by
  have sameBehind : ∀ position, whole.before position event = source.before position event := by
    intro position
    rcases Nat.lt_or_ge position event with inFront | behind
    · exact same position inFront
    · rw [before_of_le behind, before_of_le behind]
  cases answer with
  | none =>
    intro position low
    rw [sameBehind, answers position low]
  | some range =>
    refine ⟨answers.fromLower, answers.nonempty, answers.inFront, ?_, ?_⟩
    · intro position low high
      rw [sameBehind, answers.skipped position low high]
    · intro position low high
      rw [sameBehind, answers.ordered position low high]

/-- A search in the right part, moved to the positions of the whole. -/
theorem AnswersRange.shift {right whole : Source} {event lower split : Nat}
    (inRight : split ≤ event) (answers : AnswersRange right (event - split) (lower - split) answer)
    (across : ∀ position, lower ≤ position → position < split → whole.before position event = false)
    (same : ∀ position, split ≤ position → position < event →
      whole.before position event = right.before (position - split) (event - split)) :
    AnswersRange whole event lower
      (answer.map fun range => (range.1 + split, range.2 + split)) := by
  have moved : ∀ position, lower ≤ position → (split ≤ position →
      right.before (position - split) (event - split) = false) →
      whole.before position event = false := by
    intro position low isFalse
    rcases Nat.lt_or_ge position split with inLeft | behindSplit
    · exact across position low inLeft
    · rcases Nat.lt_or_ge position event with inFront | behind
      · rw [same position behindSplit inFront, isFalse behindSplit]
      · exact before_of_le behind
  cases answer with
  | none =>
    intro position low
    exact moved position low fun behindSplit => answers _ (by omega)
  | some range =>
    obtain ⟨low, nonempty, stop, skipped, ordered⟩ := answers
    refine ⟨?_, ?_, ?_, ?_, ?_⟩
    · show lower ≤ range.1 + split
      omega
    · exact Nat.add_lt_add_right nonempty _
    · show range.2 + split ≤ event
      omega
    · intro position fromLower below
      have below : position < range.1 + split := below
      exact moved position fromLower fun behindSplit => skipped _ (by omega) (by omega)
    · intro position fromFirst below
      have fromFirst : range.1 + split ≤ position := fromFirst
      have below : position < range.2 + split := below
      rw [same position (by omega) (by omega)]
      exact ordered _ (by omega) (by omega)

theorem answersRange_of_le {source : Source} {event lower : Nat} (behind : event ≤ lower) :
    AnswersRange source event lower none :=
  fun _ low => before_of_le (behind.trans low)

/-- The next range of predecessors is found. -/
theorem predecessorRange_answers (source : Source) (event lower : Nat) :
    AnswersRange source event lower (source.predecessorRange event lower) := by
  induction source generalizing event lower with
  | send message =>
    unfold predecessorRange
    split <;> exact fun position _ => by simp [before]
  | roll body hypBody =>
    rw [predecessorRange]
    split
    · exact answersRange_of_le ‹_›
    · exact (hypBody event lower).congr fun _ _ => before_roll
  | seq left right hypLeft hypRight =>
    rw [predecessorRange]
    split
    · exact answersRange_of_le ‹_›
    · split
      · rename_i inLeft
        exact (hypLeft event lower).congr fun _ inFront => before_seq_left inFront inLeft
      · split
        · rename_i inRight inLeft
          exact ⟨le_rfl, inLeft, Nat.not_lt.mp inRight,
            fun position low high => absurd low (Nat.not_le.mpr high),
            fun position _ high => before_seq_across high (Nat.not_lt.mp inRight)⟩
        · rename_i inRight behindLeft
          exact (hypRight _ _).shift (Nat.not_lt.mp inRight)
            (fun position low high => absurd (low.trans_lt high) behindLeft)
            fun position behindSplit inFront => before_seq_right inFront behindSplit
  | par left right hypLeft hypRight =>
    rw [predecessorRange]
    split
    · exact answersRange_of_le ‹_›
    · split
      · rename_i inLeft
        exact (hypLeft event lower).congr fun _ inFront => before_par_left inFront inLeft
      · rename_i inRight
        exact (hypRight _ _).shift (Nat.not_lt.mp inRight)
          (fun position _ high => before_par_across high (Nat.not_lt.mp inRight))
          fun position behindSplit inFront => before_par_right inFront behindSplit
  | route left right resolver hypLeft hypRight =>
    rw [predecessorRange]
    split
    · exact answersRange_of_le ‹_›
    · split
      · rename_i inLeft
        exact (hypLeft event lower).congr fun _ inFront => before_route_left inFront inLeft
      · rename_i inRight
        exact (hypRight _ _).shift (Nat.not_lt.mp inRight)
          (fun position _ high => before_route_across high (Nat.not_lt.mp inRight))
          fun position behindSplit inFront => before_route_right inFront behindSplit

/-! ### All predecessors -/

/-- The ranges of predecessors from a lower bound on, each found from the end of the one before. -/
def predecessorRanges (source : Source) (event : Nat) : Nat → Nat → Option (List (Nat × Nat))
  | 0, _ => none
  | fuel + 1, lower =>
    match source.predecessorRange event lower with
    | none => some []
    | some range => (source.predecessorRanges event fuel range.2).map (range :: ·)

/-- Ranges with something in them, in order and apart, that hold exactly the predecessors from a
lower bound on. -/
structure ListsPredecessors (source : Source) (event lower : Nat) (ranges : List (Nat × Nat)) :
    Prop where
  nonempty : ∀ range ∈ ranges, range.1 < range.2
  increasing : ranges.Pairwise fun first second => first.2 ≤ second.1
  covers : ∀ position, (∃ range ∈ ranges, range.1 ≤ position ∧ position < range.2) ↔
    lower ≤ position ∧ source.before position event = true

/-- Every range ends behind the bound that it was found from, so the bound comes closer to the
event. -/
theorem exists_predecessorRanges {source : Source} {event lower fuel : Nat}
    (enough : event - lower < fuel) :
    ∃ ranges, source.predecessorRanges event fuel lower = some ranges ∧
      source.ListsPredecessors event lower ranges := by
  induction fuel generalizing lower with
  | zero => cases enough
  | succ fuel hyp =>
    have answers := source.predecessorRange_answers event lower
    rw [predecessorRanges]
    cases isRange : source.predecessorRange event lower with
    | none =>
      rw [isRange] at answers
      refine ⟨[], rfl, nofun, .nil, fun position => ⟨nofun, fun ⟨low, isBefore⟩ => ?_⟩⟩
      rw [answers position low] at isBefore
      cases isBefore
    | some range =>
      rw [isRange] at answers
      obtain ⟨low, nonempty, inFront, skipped, ordered⟩ := answers
      obtain ⟨ranges, isOk, lists⟩ := @hyp range.2 (by omega)
      refine ⟨range :: ranges, congrArg (Option.map (range :: ·)) isOk,
        List.forall_mem_cons.mpr ⟨nonempty, lists.nonempty⟩,
        List.pairwise_cons.mpr ⟨fun later mem => ?_, lists.increasing⟩, fun position => ?_⟩
      · have first := (lists.covers later.1).mp
          ⟨later, mem, le_rfl, lists.nonempty later mem⟩
        exact first.1
      · rw [List.exists_mem_cons_iff, lists.covers]
        constructor
        · rintro (⟨fromFirst, below⟩ | ⟨behind, isBefore⟩)
          · exact ⟨low.trans fromFirst, ordered position fromFirst below⟩
          · exact ⟨by omega, isBefore⟩
        · rintro ⟨fromLower, isBefore⟩
          by_cases behind : range.2 ≤ position
          · exact .inr ⟨behind, isBefore⟩
          · refine .inl ⟨Nat.not_lt.mp fun early => ?_, Nat.lt_of_not_le behind⟩
            rw [skipped position fromLower early] at isBefore
            cases isBefore

/-- Going from range to range comes to an end, and lists the predecessors of the event from the
lower bound on. -/
theorem predecessorRanges_lists (source : Source) (event lower extra : Nat) :
    ∃ ranges, source.predecessorRanges event (event + 1 + extra) lower = some ranges ∧
      source.ListsPredecessors event lower ranges :=
  exists_predecessorRanges (by omega)

end Source

end Hibana
