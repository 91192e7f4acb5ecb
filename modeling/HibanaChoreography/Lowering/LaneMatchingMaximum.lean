/-
This file proves that the matching of lanes is a largest one.

A search that fails has explored a set of right lanes that is closed: every left
lane that one of them may take was marked, and is matched with one of them. A
search that succeeds does not touch a closed set, since a path that enters it
never comes to a free left lane. So the closed sets of all failed searches last to
the end, and together they hold every right lane without a left lane.
-/

import HibanaChoreography.Library.Matching
import HibanaChoreography.Lowering.LaneMatchingSoundness
import Mathlib.Data.Nat.Count

namespace Hibana

open Outcome List

namespace LaneMatching

variable {allows : Nat → Nat → Bool} {leftSpan rightSpan : Nat}

/-! ### Closed sets of right lanes -/

/-- Every left lane that a member may take is matched with a member. -/
def Closed (allows : Nat → Nat → Bool) (leftSpan : Nat) (matching : LaneMatching)
    (members : Set Nat) : Prop :=
  ∀ right ∈ members, ∀ left < leftSpan, allows right left = true →
    ∃ partner ∈ members, matching.leftToRight left = some partner

variable {matching result : LaneMatching} {members explored : Set Nat} {frame : Frame}
  {earlier frames : List Frame} {right left : Nat} {seen : Finset Nat}

theorem Closed.union {first second : Set Nat} (isFirst : Closed allows leftSpan matching first)
    (isSecond : Closed allows leftSpan matching second) :
    Closed allows leftSpan matching (first ∪ second) := by
  rintro right (inFirst | inSecond) left inside isAllowed
  · obtain ⟨partner, mem, isPartner⟩ := isFirst right inFirst left inside isAllowed
    exact ⟨partner, .inl mem, isPartner⟩
  · obtain ⟨partner, mem, isPartner⟩ := isSecond right inSecond left inside isAllowed
    exact ⟨partner, .inr mem, isPartner⟩

theorem closed_empty (matching : LaneMatching) : Closed allows leftSpan matching ∅ := by
  rintro right ⟨⟩

/-- On the stack of a search, what is above a member of a closed set is a member. -/
theorem Path.head_mem (sound : Sound allows leftSpan matching)
    (closed : Closed allows leftSpan matching members) {top : Frame}
    (path : Path allows leftSpan matching (top :: earlier)) (onStack : frame ∈ top :: earlier)
    (isMember : frame.right ∈ members) : top.right ∈ members := by
  induction earlier generalizing top with
  | nil =>
    rw [mem_singleton] at onStack
    exact onStack ▸ isMember
  | cons lower earlier hyp =>
    rcases mem_cons.mp onStack with rfl | below
    · exact isMember
    · have lowerMember := hyp path.pop below
      obtain ⟨left, isParent, isAllowed, inside⟩ := (isChain_cons_cons.mp path.linked).1
      obtain ⟨partner, partnerMember, isPartner⟩ := closed lower.right lowerMember left inside
        isAllowed
      have isMatched := path.matched top mem_cons_self
      rw [isParent, sound.inverse, isPartner] at isMatched
      exact Option.some.inj isMatched ▸ partnerMember

/-- A stack whose top may take a free left lane does not meet a closed set. -/
theorem Path.notMem_closed (sound : Sound allows leftSpan matching)
    (closed : Closed allows leftSpan matching members) {top : Frame}
    (path : Path allows leftSpan matching (top :: earlier)) {free : Nat} (inside : free < leftSpan)
    (isAllowed : allows top.right free = true) (isFree : matching.leftToRight free = none)
    (onStack : frame ∈ top :: earlier) : frame.right ∉ members := by
  intro isMember
  obtain ⟨partner, _, isPartner⟩ :=
    closed top.right (path.head_mem sound closed onStack isMember) free inside isAllowed
  rw [isFree] at isPartner
  cases isPartner

/-- A closed set stays closed when its members keep their left lanes. -/
theorem Closed.kept (closed : Closed allows leftSpan matching members)
    (sound : Sound allows leftSpan matching) (resultSound : Sound allows leftSpan result)
    (kept : ∀ right ∈ members, result.rightToLeft right = matching.rightToLeft right) :
    Closed allows leftSpan result members := by
  intro right mem left inside isAllowed
  obtain ⟨partner, partnerMember, isPartner⟩ := closed right mem left inside isAllowed
  refine ⟨partner, partnerMember, (resultSound.inverse partner left).mp ?_⟩
  rw [kept partner partnerMember]
  exact (sound.inverse partner left).mpr isPartner

/-! ### Flipping keeps right lanes matched -/

theorem isSome_assign {other : Nat} (isSome : (matching.rightToLeft other).isSome) :
    ((matching.assign right left).rightToLeft other).isSome := by
  rcases eq_or_ne other right with rfl | differs
  · rw [rightToLeft_assign_self]
    rfl
  · rwa [rightToLeft_assign_of_ne _ _ differs]

/-- Flipping a stack leaves every matched right lane matched, and the stack with it. -/
theorem assignPath_isSome {free : Nat} (isOk : assignPath matching free frames = .ok result) :
    (∀ other, (matching.rightToLeft other).isSome → (result.rightToLeft other).isSome) ∧
      ∀ frame ∈ frames, (result.rightToLeft frame.right).isSome := by
  induction frames generalizing matching free with
  | nil =>
    cases isOk
    exact ⟨fun _ isSome => isSome, nofun⟩
  | cons frame earlier hyp =>
    have assigned : ((matching.assign frame.right free).rightToLeft frame.right).isSome := by
      rw [rightToLeft_assign_self]
      rfl
    cases earlier with
    | nil =>
      cases isOk
      refine ⟨fun other isSome => isSome_assign isSome, fun found mem => ?_⟩
      rw [mem_singleton.mp mem]
      exact assigned
    | cons lower earlier =>
      simp only [assignPath] at isOk
      split at isOk
      · cases isOk
      · obtain ⟨kept, onStack⟩ := hyp isOk
        exact ⟨fun other isSome => kept other (isSome_assign isSome),
          forall_mem_cons.mpr ⟨kept _ assigned, onStack⟩⟩

/-! ### A search -/

/-- What a search has explored: the marked left lanes are matched with explored right lanes, and
an explored right lane has no other left lane to take, but for those still ahead on the stack. -/
structure Explores (allows : Nat → Nat → Bool) (leftSpan : Nat) (matching : LaneMatching)
    (seen : Finset Nat) (frames : List Frame) (explored : Set Nat) : Prop where
  onStack : ∀ frame ∈ frames, frame.right ∈ explored
  reached : ∀ left ∈ seen, ∃ partner ∈ explored, matching.leftToRight left = some partner
  ahead : ∀ right ∈ explored, ∀ left < leftSpan, allows right left = true → left ∈ seen ∨
    ∃ frame ∈ frames, frame.right = right ∧ frame.nextLeft ≤ left

theorem Explores.closed (explores : Explores allows leftSpan matching seen [] explored) :
    Closed allows leftSpan matching explored := by
  intro right mem left inside isAllowed
  rcases explores.ahead right mem left inside isAllowed with isSeen | ⟨_, ⟨⟩, _⟩
  exact explores.reached left isSeen

theorem selectLeft_none {nextLeft : Nat}
    (isNone : selectLeft allows leftSpan seen right nextLeft = none) (fromNext : nextLeft ≤ left)
    (inside : left < leftSpan) (isAllowed : allows right left = true) : left ∈ seen := by
  have fails := find?_eq_none.mp isNone left (mem_range'_1.mpr (by omega))
  by_contra notSeen
  exact fails (decide_eq_true ⟨notSeen, isAllowed⟩)

/-- The left lanes in front of the selected one are marked. -/
theorem selectLeft_skips {nextLeft selected : Nat}
    (isSelected : selectLeft allows leftSpan seen right nextLeft = some selected)
    (fromNext : nextLeft ≤ left) (before : left < selected) (isAllowed : allows right left = true) :
    left ∈ seen := by
  obtain ⟨_, front, back, isCut, skipped⟩ := find?_eq_some_iff_append.mp isSelected
  have bounds := mem_range'_1.mp (mem_of_find?_eq_some isSelected)
  have mem : left ∈ List.range' nextLeft (leftSpan - nextLeft) :=
    mem_range'_1.mpr (by omega)
  have ordered : (List.range' nextLeft (leftSpan - nextLeft)).Pairwise (· < ·) :=
    pairwise_lt_range'
  rw [isCut] at mem ordered
  by_contra notSeen
  rcases mem_append.mp mem with inFront | inBack
  · have fails := skipped left inFront
    rw [decide_eq_true (show left ∉ seen ∧ allows right left = true from ⟨notSeen, isAllowed⟩)]
      at fails
    cases fails
  · rcases mem_cons.mp inBack with rfl | behind
    · exact Nat.lt_irrefl _ before
    · have later := (pairwise_cons.mp (pairwise_append.mp ordered).2.1).1 left behind
      omega

/-- Going back from a right lane: nothing is ahead of it any more. -/
theorem Explores.pop (explores : Explores allows leftSpan matching seen (frame :: earlier) explored)
    (isNone : selectLeft allows leftSpan seen frame.right frame.nextLeft = none) :
    Explores allows leftSpan matching seen earlier explored where
  onStack := fun other mem => explores.onStack other (mem_cons_of_mem _ mem)
  reached := explores.reached
  ahead := fun right mem left inside isAllowed => by
    rcases explores.ahead right mem left inside isAllowed with isSeen | ⟨found, onStack, rfl, le⟩
    · exact .inl isSeen
    · rcases mem_cons.mp onStack with rfl | inEarlier
      · exact .inl (selectLeft_none isNone le inside isAllowed)
      · exact .inr ⟨found, inEarlier, rfl, le⟩

/-- Going on to the right lane behind a selected left lane. -/
theorem Explores.push {occupant : Nat}
    (explores : Explores allows leftSpan matching seen (frame :: earlier) explored)
    (isSelected : selectLeft allows leftSpan seen frame.right frame.nextLeft = some left)
    (isOccupied : matching.leftToRight left = some occupant) :
    Explores allows leftSpan matching (insert left seen)
      (⟨occupant, 0, some left⟩ :: { frame with nextLeft := left + 1 } :: earlier)
      (insert occupant explored) where
  onStack := by
    refine forall_mem_cons.mpr ⟨Set.mem_insert _ _, forall_mem_cons.mpr ⟨?_, ?_⟩⟩
    · exact Set.mem_insert_of_mem _ (explores.onStack frame mem_cons_self)
    · exact fun other mem => Set.mem_insert_of_mem _
        (explores.onStack other (mem_cons_of_mem _ mem))
  reached := fun other mem => by
    rcases Finset.mem_insert.mp mem with rfl | isSeen
    · exact ⟨occupant, Set.mem_insert _ _, isOccupied⟩
    · obtain ⟨partner, isExplored, isPartner⟩ := explores.reached other isSeen
      exact ⟨partner, Set.mem_insert_of_mem _ isExplored, isPartner⟩
  ahead := fun right mem other inside isAllowed => by
    rcases Set.mem_insert_iff.mp mem with rfl | isExplored
    · exact .inr ⟨_, mem_cons_self, rfl, Nat.zero_le _⟩
    · rcases explores.ahead right isExplored other inside isAllowed with
        isSeen | ⟨found, onStack, rfl, le⟩
      · exact .inl (Finset.mem_insert_of_mem isSeen)
      · rcases mem_cons.mp onStack with rfl | inEarlier
        · rcases Nat.lt_trichotomy other left with before | rfl | behind
          · exact .inl (Finset.mem_insert_of_mem (selectLeft_skips isSelected le before isAllowed))
          · exact .inl (Finset.mem_insert_self _ _)
          · exact .inr ⟨_, mem_cons_of_mem _ mem_cons_self, rfl, behind⟩
        · exact .inr ⟨found, mem_cons_of_mem _ (mem_cons_of_mem _ inEarlier), rfl, le⟩

/-- The outcome of a search for a right lane: it is matched and every closed set lasts, or nothing
has changed and what was explored is closed. -/
def Searched (allows : Nat → Nat → Bool) (leftSpan : Nat) (matching result : LaneMatching)
    (root : Nat) (explored : Set Nat) : Prop :=
  ((result.rightToLeft root).isSome ∧
      ∀ members, Closed allows leftSpan matching members → Closed allows leftSpan result members) ∨
    (result = matching ∧ ∃ members, explored ⊆ members ∧ Closed allows leftSpan matching members)

/-- What a search for a right lane keeps: no right lane loses its lane, and no other gets one. -/
structure Kept (allows : Nat → Nat → Bool) (leftSpan : Nat) (matching result : LaneMatching)
    (root : Nat) : Prop where
  sound : Sound allows leftSpan result
  matched : ∀ other, (matching.rightToLeft other).isSome → (result.rightToLeft other).isSome
  unmatched : ∀ other, other ≠ root → matching.rightToLeft other = none →
    result.rightToLeft other = none

/-- Distinct right lanes inside the span leave room on the stack for one more. -/
theorem Path.length_lt {occupant : Nat} (path : Path allows leftSpan matching frames)
    (inside : ∀ frame ∈ frames, frame.right < rightSpan) (isNew : occupant ∉ frames.map Frame.right)
    (occupantInside : occupant < rightSpan) : frames.length < rightSpan := by
  have distinct : (occupant :: frames.map Frame.right).Nodup :=
    nodup_cons.mpr ⟨isNew, path.distinct⟩
  have subset : occupant :: frames.map Frame.right ⊆ List.range rightSpan := by
    refine cons_subset.mpr ⟨mem_range.mpr occupantInside, fun right mem => ?_⟩
    obtain ⟨frame, onStack, rfl⟩ := mem_map.mp mem
    exact mem_range.mpr (inside frame onStack)
  have bound := (distinct.subperm subset).length_le
  rw [length_cons, length_map, length_range] at bound
  exact bound

/-- A search returns and has one of its two outcomes. -/
theorem augmentFuel_spec {fuel root : Nat} (sound : Sound allows leftSpan matching)
    (bound : rightSpan ≤ byteDomain)
    (matched : ∀ right left, matching.rightToLeft right = some left → right < rightSpan)
    (path : Path allows leftSpan matching (frame :: earlier))
    (isRoot : (frame :: earlier).getLast?.map Frame.right = some root)
    (marked : ∀ other ∈ frame :: earlier, ∀ parent, other.parentLeft = some parent → parent ∈ seen)
    (inside : ∀ other ∈ frame :: earlier, other.right < rightSpan)
    (seenInside : ∀ left ∈ seen, left < leftSpan)
    (explores : Explores allows leftSpan matching seen (frame :: earlier) explored)
    (enough : 2 * (leftSpan - seen.card) + (frame :: earlier).length < fuel) :
    ∃ result, augmentFuel allows leftSpan matching fuel seen (frame :: earlier) = .ok result ∧
      Kept allows leftSpan matching result root ∧
      Searched allows leftSpan matching result root explored := by
  induction fuel generalizing seen frame earlier explored with
  | zero => cases enough
  | succ fuel hyp =>
    rw [augmentFuel]
    cases isSelected : selectLeft allows leftSpan seen frame.right frame.nextLeft with
    | none =>
      cases earlier with
      | nil =>
        have isEmpty : augmentFuel allows leftSpan matching fuel seen [] = .ok matching := by
          cases fuel with
          | zero => simp at enough
          | succ fuel => rfl
        exact ⟨matching, isEmpty, ⟨sound, fun _ isSome => isSome, fun _ _ isNone => isNone⟩,
          .inr ⟨rfl, explored, subset_rfl, (explores.pop isSelected).closed⟩⟩
      | cons lower earlier =>
        rw [getLast?_cons_cons] at isRoot
        exact hyp path.pop isRoot (fun other mem => marked other (mem_cons_of_mem _ mem))
          (fun other mem => inside other (mem_cons_of_mem _ mem)) seenInside
          (explores.pop isSelected) (by simp only [length_cons] at enough ⊢; omega)
    | some left =>
      obtain ⟨leftInside, isNew, isAllowed⟩ := selectLeft_spec isSelected
      dsimp only
      cases isOccupied : matching.leftToRight left with
      | none =>
        dsimp only
        obtain ⟨result, isResult, resultSound, kept⟩ :=
          assignPath_sound path (sound.pending isOccupied) isAllowed leftInside
        obtain ⟨keptSome, stackSome⟩ := assignPath_isSome isResult
        obtain ⟨last, isLast, rfl⟩ := Option.map_eq_some_iff.mp isRoot
        refine ⟨result, isResult, ⟨resultSound, keptSome, fun other notRoot isNone => ?_⟩,
          .inl ⟨stackSome last (mem_of_getLast? isLast), fun members closed => ?_⟩⟩
        · rw [kept other, isNone]
          rintro onStack mem rfl
          rw [path.matched onStack mem] at isNone
          have same := path.parent_ne_none mem isNone
          rw [isLast] at same
          exact notRoot (congrArg Frame.right (Option.some.inj same).symm)
        · refine closed.kept sound resultSound fun right mem => kept right ?_
          rintro onStack isOn rfl
          exact path.notMem_closed sound closed leftInside isAllowed isOccupied isOn mem
      | some occupant =>
        have isMatched := (sound.inverse occupant left).mpr isOccupied
        have occupantInside := matched occupant left isMatched
        have notOn := path.notMem marked isNew isMatched
        have room := path.length_lt inside notOn occupantInside
        have nextInside : ∀ other ∈ insert left seen, other < leftSpan := by
          intro other mem
          rcases Finset.mem_insert.mp mem with rfl | isSeen
          · exact leftInside
          · exact seenInside other isSeen
        have cardBound : (insert left seen).card ≤ leftSpan := by
          rw [← Finset.card_range leftSpan]
          exact Finset.card_le_card fun other mem =>
            Finset.mem_range.mpr (nextInside other mem)
        have isCard := Finset.card_insert_of_notMem isNew
        dsimp only
        rw [if_neg (by omega)]
        obtain ⟨result, isResult, kept, searched⟩ := hyp
          (path.push (left + 1) isMatched isAllowed leftInside notOn)
          (by cases earlier <;> simpa using isRoot)
          (forall_mem_cons.mpr ⟨fun parent isParent => by
              cases isParent
              exact Finset.mem_insert_self _ _,
            forall_mem_cons.mpr ⟨fun parent isParent => Finset.mem_insert_of_mem
                (marked frame mem_cons_self parent isParent),
              fun other mem parent isParent => Finset.mem_insert_of_mem
                (marked other (mem_cons_of_mem _ mem) parent isParent)⟩⟩)
          (forall_mem_cons.mpr ⟨occupantInside, forall_mem_cons.mpr
            ⟨inside frame mem_cons_self,
              fun other mem => inside other (mem_cons_of_mem _ mem)⟩⟩)
          nextInside (explores.push isSelected isOccupied)
          (by simp only [length_cons] at enough ⊢; omega)
        refine ⟨result, isResult, kept,
          searched.imp_right fun ⟨same, members, subset, closed⟩ => ?_⟩
        exact ⟨same, members, (Set.subset_insert _ _).trans subset, closed⟩

theorem augment_spec (sound : Sound allows leftSpan matching) (bound : rightSpan ≤ byteDomain)
    (matched : ∀ right left, matching.rightToLeft right = some left → right < rightSpan)
    (inside : right < rightSpan) (unmatched : matching.rightToLeft right = none) :
    ∃ result, augment allows leftSpan matching right = .ok result ∧
      Kept allows leftSpan matching result right ∧
      Searched allows leftSpan matching result right {right} :=
  augmentFuel_spec sound bound matched (path_singleton unmatched) rfl
    (fun frame mem parent isParent => by
      rw [mem_singleton.mp mem] at isParent
      cases isParent)
    (fun frame mem => by
      rw [mem_singleton.mp mem]
      exact inside)
    nofun
    { onStack := fun frame mem => by
        rw [mem_singleton.mp mem]
        rfl
      reached := nofun
      ahead := by
        rintro _ rfl left _ _
        exact .inr ⟨_, mem_cons_self, rfl, Nat.zero_le _⟩ } (by simp)

/-! ### All right lanes -/

/-- After the searches for the first right lanes: those without a left lane are in a closed set. -/
structure Saturated (allows : Nat → Nat → Bool) (leftSpan : Nat) (matching : LaneMatching)
    (start : Nat) : Prop where
  sound : Sound allows leftSpan matching
  later : ∀ right, start ≤ right → matching.rightToLeft right = none
  closed : ∃ members, Closed allows leftSpan matching members ∧
    ∀ right < start, matching.rightToLeft right = none → right ∈ members

theorem saturated_empty : Saturated allows leftSpan empty 0 where
  sound := sound_empty
  later := fun _ _ => rfl
  closed := ⟨∅, closed_empty empty, fun right inside => absurd inside (Nat.not_lt_zero right)⟩

/-- One more search keeps the closed set, or adds to it what it has explored. -/
theorem Saturated.augment {start : Nat} (saturated : Saturated allows leftSpan matching start)
    (bound : rightSpan ≤ byteDomain) (inside : start < rightSpan) :
    ∃ result, augment allows leftSpan matching start = .ok result ∧
      Saturated allows leftSpan result (start + 1) := by
  have matched : ∀ right left, matching.rightToLeft right = some left → right < rightSpan := by
    intro right left isMatched
    by_contra beyond
    rw [saturated.later right (by omega)] at isMatched
    cases isMatched
  have unmatched := saturated.later start le_rfl
  obtain ⟨result, isResult, kept, searched⟩ :=
    augment_spec saturated.sound bound matched inside unmatched
  obtain ⟨members, closed, holds⟩ := saturated.closed
  have stillNone : ∀ right, result.rightToLeft right = none →
      matching.rightToLeft right = none := by
    intro right isNone
    cases isMatched : matching.rightToLeft right with
    | none => rfl
    | some left =>
      have isSome := kept.matched right (by rw [isMatched]; rfl)
      rw [isNone] at isSome
      cases isSome
  refine ⟨result, isResult, kept.sound, fun right behind => ?_, ?_⟩
  · exact kept.unmatched right (by omega) (saturated.later right (by omega))
  · rcases searched with ⟨nowMatched, keptClosed⟩ | ⟨rfl, explored, subset, isClosed⟩
    · refine ⟨members, keptClosed members closed, fun right before isNone => ?_⟩
      rcases Nat.lt_succ_iff_lt_or_eq.mp before with earlier | rfl
      · exact holds right earlier (stillNone right isNone)
      · rw [isNone] at nowMatched
        cases nowMatched
    · refine ⟨members ∪ explored, closed.union isClosed, fun right before isNone => ?_⟩
      rcases Nat.lt_succ_iff_lt_or_eq.mp before with earlier | rfl
      · exact .inl (holds right earlier isNone)
      · exact .inr (subset rfl)

/-- The matching of two lane spans is found. -/
theorem maximum_saturated (leftBound : leftSpan ≤ byteDomain)
    (rightBound : rightSpan ≤ byteDomain) :
    ∃ result, maximum allows leftSpan rightSpan = .ok result ∧
      Saturated allows leftSpan result rightSpan := by
  have fold : ∀ (count start : Nat) (matching : LaneMatching), start + count = rightSpan →
      Saturated allows leftSpan matching start →
      ∃ result, (List.range' start count).foldlM (LaneMatching.augment allows leftSpan) matching =
        .ok result ∧ Saturated allows leftSpan result rightSpan := by
    intro count
    induction count with
    | zero =>
      rintro start matching rfl saturated
      exact ⟨matching, rfl, saturated⟩
    | succ count hyp =>
      intro start matching isSpan saturated
      obtain ⟨next, isNext, nextSaturated⟩ := saturated.augment rightBound (by omega)
      rw [range'_succ, foldlM_cons, isNext]
      exact hyp (start + 1) next (by omega) nextSaturated
  unfold maximum
  rw [if_neg (by omega), range_eq_range']
  exact fold rightSpan 0 empty (Nat.zero_add _) saturated_empty

/-- The pairs of a matching. -/
def pairs (matching : LaneMatching) (leftSpan rightSpan : Nat) : Finset (Nat × Nat) :=
  (Finset.range rightSpan ×ˢ Finset.range leftSpan).filter fun pair =>
    matching.rightToLeft pair.1 = some pair.2

section

variable (saturated : Saturated allows leftSpan matching rightSpan)

include saturated

theorem Saturated.mem_pairs (right left : Nat) :
    (right, left) ∈ matching.pairs leftSpan rightSpan ↔ matching.rightToLeft right = some left := by
  refine ⟨fun mem => (Finset.mem_filter.mp mem).2, fun isMatched => ?_⟩
  have inside : right < rightSpan := by
    by_contra beyond
    rw [saturated.later right (by omega)] at isMatched
    cases isMatched
  exact Finset.mem_filter.mpr ⟨Finset.mem_product.mpr ⟨Finset.mem_range.mpr inside,
    Finset.mem_range.mpr (saturated.sound.allowed right left isMatched).2⟩, isMatched⟩

theorem Saturated.isMatching :
    Matching.IsMatching (fun right left => allows right left = true) (Finset.range rightSpan)
      (Finset.range leftSpan) (matching.pairs leftSpan rightSpan) where
  allowed := fun pair mem => by
    obtain ⟨inBoth, isMatched⟩ := Finset.mem_filter.mp mem
    obtain ⟨inRights, inLefts⟩ := Finset.mem_product.mp inBoth
    exact ⟨inRights, inLefts, (saturated.sound.allowed _ _ isMatched).1⟩
  right := by
    rintro ⟨right, left⟩ isFirst ⟨other, second⟩ isSecond (rfl : right = other)
    have first := (saturated.mem_pairs _ _).mp isFirst
    rw [(saturated.mem_pairs _ _).mp isSecond] at first
    rw [Option.some.inj first]
  left := by
    rintro ⟨right, left⟩ isFirst ⟨other, second⟩ isSecond (rfl : left = second)
    rw [saturated.sound.injective ((saturated.mem_pairs _ _).mp isFirst)
      ((saturated.mem_pairs _ _).mp isSecond)]

/-- The matching that the searches end with is a largest one. -/
theorem Saturated.isMaximum :
    Matching.IsMaximum (fun right left => allows right left = true) (Finset.range rightSpan)
      (Finset.range leftSpan) (matching.pairs leftSpan rightSpan).card := by
  obtain ⟨members, closed, holds⟩ := saturated.closed
  refine saturated.isMatching.isMaximum_of_closed (?_ : Matching.Closed _ _ _ members) ?_
  · intro right mem left inLefts isAllowed
    obtain ⟨partner, isMember, isPartner⟩ := closed right mem left
      (Finset.mem_range.mp inLefts) isAllowed
    exact ⟨partner, isMember, (saturated.mem_pairs _ _).mpr
      ((saturated.sound.inverse partner left).mpr isPartner)⟩
  · intro right inRights isNone
    refine holds right (Finset.mem_range.mp inRights) (Option.eq_none_iff_forall_ne_some.mpr ?_)
    exact fun left isMatched => isNone left ((saturated.mem_pairs right left).mpr isMatched)

/-- Every right lane is in a pair or without a left lane. -/
theorem Saturated.card_pairs :
    (matching.pairs leftSpan rightSpan).card +
      (List.range rightSpan).countP (fun right => (matching.rightToLeft right).isNone) =
        rightSpan := by
  have isImage : (matching.pairs leftSpan rightSpan).image Prod.fst =
      (Finset.range rightSpan).filter fun right => (matching.rightToLeft right).isSome := by
    ext right
    constructor
    · intro mem
      obtain ⟨pair, isPair, rfl⟩ := Finset.mem_image.mp mem
      obtain ⟨inBoth, isMatched⟩ := Finset.mem_filter.mp isPair
      exact Finset.mem_filter.mpr ⟨(Finset.mem_product.mp inBoth).1, by rw [isMatched]; rfl⟩
    · intro mem
      obtain ⟨inside, isSome⟩ := Finset.mem_filter.mp mem
      obtain ⟨left, isMatched⟩ := Option.isSome_iff_exists.mp isSome
      exact Finset.mem_image.mpr ⟨(right, left), Finset.mem_filter.mpr
        ⟨Finset.mem_product.mpr ⟨inside, Finset.mem_range.mpr
          (saturated.sound.allowed right left isMatched).2⟩, isMatched⟩, rfl⟩
  have isCount : (matching.pairs leftSpan rightSpan).card =
      (List.range rightSpan).countP fun right => (matching.rightToLeft right).isSome := by
    rw [← Finset.card_image_of_injOn (f := Prod.fst) (s := matching.pairs leftSpan rightSpan),
      isImage, ← Nat.count_eq_card_filter_range]
    · simp [Nat.count]
    · exact saturated.isMatching.right
  have isLength := length_eq_countP_add_countP
    (p := fun right => (matching.rightToLeft right).isSome) (l := List.range rightSpan)
  rw [length_range] at isLength
  rw [isCount]
  simp only [Bool.not_eq_true, Option.isSome_eq_false_iff, Bool.decide_eq_true] at isLength
  exact isLength.symm

end

end LaneMatching

end Hibana
