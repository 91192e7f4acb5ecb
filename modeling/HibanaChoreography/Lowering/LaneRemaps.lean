/-
This file is about the lanes that the right arm of a parallel gets when the arms are
merged.

A right lane that the matching pairs takes the left lane of its pair, and every
other one takes the next fresh lane. So the right arm's lanes are moved injectively,
and the moved lanes fill the range up to the new span.
-/

import HibanaChoreography.Lowering.LaneMatchingSoundness
import HibanaChoreography.Lowering.Placement
import HibanaChoreography.Ownership.KnowledgeSoundness

namespace Hibana

open Outcome List

/-! ### The roles of an event -/

namespace ActorImage

theorem Membership.note_union (membership : Membership) (limit : Nat) (message : String)
    (reference : Nat) (base : Finset UInt8) :
    ({ membership with actors := base ∪ membership.actors } : Membership).note limit message
        reference =
      (membership.note limit message reference).map fun noted =>
        { noted with actors := base ∪ noted.actors } := by
  unfold Membership.note
  split
  · dsimp only [Except.map]
    rw [Finset.union_insert]
  · split <;> rfl

theorem visitPending_union (image : ActorImage) (bound : Nat) (membership : Membership)
    (base : Finset UInt8) :
    image.visitPending bound { membership with actors := base ∪ membership.actors } =
      (image.visitPending bound membership).map (base ∪ ·) := by
  induction bound generalizing membership with
  | zero => rfl
  | succ bound hyp =>
    unfold visitPending
    dsimp only
    split
    · split
      · rfl
      · rename_i choice _
        rw [Membership.note_union]
        cases membership.note bound "actor membership reference is not backward" choice.left with
        | error fault => rfl
        | ok left =>
          rw [Run.map_ok, Run.bind_ok, Run.bind_ok, Membership.note_union]
          cases left.note bound "actor membership reference is not backward" choice.right with
          | error fault => rfl
          | ok right => exact hyp right
    · exact hyp membership

/-- The possible actors of an event are added to those given. -/
theorem includePossibleActors_eq (image : ActorImage) (event : Nat) (base : Finset UInt8) :
    image.includePossibleActors event base = (image.possibleActors event).map (base ∪ ·) := by
  unfold possibleActors includePossibleActors
  split
  · rfl
  · cases image.pairAt event with
    | error fault => rfl
    | ok pair =>
      rw [Run.bind_ok, Run.bind_ok]
      dsimp only
      have start : (⟨∅, base⟩ : Membership) =
          { (⟨∅, ∅⟩ : Membership) with actors := base ∪ ∅ } := by
        rw [Finset.union_empty]
      rw [start]
      have noted := Membership.note_union ⟨∅, ∅⟩ image.choices.length
        "actor membership reference outside source" pair.sender base
      rw [noted]
      cases Membership.note ⟨∅, ∅⟩ image.choices.length
        "actor membership reference outside source" pair.sender with
      | error fault => rfl
      | ok sender =>
        rw [Run.map_ok, Run.bind_ok, Run.bind_ok, Membership.note_union]
        cases sender.note image.choices.length "actor membership reference outside source"
          pair.receiver with
        | error fault => rfl
        | ok receiver =>
          rw [Run.map_ok, Run.bind_ok, Run.bind_ok, visitPending_union]

end ActorImage

/-! ### The lane classes of a range -/

/-- The lane of an event. -/
def EffList.laneAt (eff : EffList) (event : Nat) : Option UInt8 := (eff.events[event]?).map (·.lane)

namespace LaneEndpointIndex

variable {eff : EffList} {actors : Option ActorImage} {source : Source}

/-- The roles of one lane are replaced, and those of the other lanes stay. -/
theorem endpointSet_replace (slots : List (UInt8 × Finset UInt8)) (lane : UInt8)
    (endpoints : Finset UInt8) (isSlot : (⟨slots⟩ : LaneEndpointIndex).containsLane lane = true)
    (other : UInt8) :
    (⟨slots.map fun slot => if slot.1 = lane then (slot.1, endpoints) else slot⟩ :
        LaneEndpointIndex).endpointSet other =
      if other = lane then endpoints else (⟨slots⟩ : LaneEndpointIndex).endpointSet other := by
  have sameLane : (fun slot : UInt8 × Finset UInt8 => decide (slot.1 = other)) ∘
      (fun slot => if slot.1 = lane then (slot.1, endpoints) else slot) =
        fun slot => decide (slot.1 = other) := by
    funext slot
    dsimp only [Function.comp]
    split <;> rfl
  unfold endpointSet
  rw [find?_map, sameLane]
  cases isFound : slots.find? fun slot => decide (slot.1 = other) with
  | none =>
    rw [if_neg]
    · rfl
    · rintro rfl
      obtain ⟨slot, mem, isLane⟩ := any_eq_true.mp isSlot
      exact find?_eq_none.mp isFound slot mem isLane
  | some slot =>
    have isOther := find?_some isFound
    rw [decide_eq_true_eq] at isOther
    dsimp only [Option.map_some, Option.getD_some]
    rw [isOther]
    split <;> rfl

theorem containsLane_replace (slots : List (UInt8 × Finset UInt8)) (lane other : UInt8)
    (endpoints : Finset UInt8) :
    (⟨slots.map fun slot => if slot.1 = lane then (slot.1, endpoints) else slot⟩ :
        LaneEndpointIndex).containsLane other =
          (⟨slots⟩ : LaneEndpointIndex).containsLane other := by
  unfold containsLane
  rw [any_map]
  congr 1
  funext slot
  dsimp only [Function.comp]
  split <;> rfl

/-- A new lane is added, and the other lanes stay. -/
theorem endpointSet_append (slots : List (UInt8 × Finset UInt8)) (lane : UInt8)
    (endpoints : Finset UInt8) (isNew : (⟨slots⟩ : LaneEndpointIndex).containsLane lane = false)
    (other : UInt8) :
    (⟨slots ++ [(lane, endpoints)]⟩ : LaneEndpointIndex).endpointSet other =
      if other = lane then endpoints else (⟨slots⟩ : LaneEndpointIndex).endpointSet other := by
  unfold endpointSet
  rw [find?_append]
  cases isFound : slots.find? fun slot => decide (slot.1 = other) with
  | none =>
    rw [Option.none_or, find?_singleton]
    rcases eq_or_ne other lane with rfl | differs
    · rw [if_pos rfl, if_pos (decide_eq_true rfl)]
      rfl
    · rw [if_neg differs, if_neg fun same => differs (of_decide_eq_true same).symm]
  | some slot =>
    have isOther := find?_some isFound
    rw [decide_eq_true_eq] at isOther
    rw [Option.some_or, if_neg]
    rintro rfl
    have isSlot : (⟨slots⟩ : LaneEndpointIndex).containsLane slot.1 = true :=
      any_eq_true.mpr ⟨slot, mem_of_find?_eq_some isFound, decide_eq_true rfl⟩
    rw [isOther, isNew] at isSlot
    cases isSlot

theorem containsLane_append (slots : List (UInt8 × Finset UInt8)) (lane other : UInt8)
    (endpoints : Finset UInt8) :
    (⟨slots ++ [(lane, endpoints)]⟩ : LaneEndpointIndex).containsLane other =
      ((⟨slots⟩ : LaneEndpointIndex).containsLane other || decide (lane = other)) := by
  unfold containsLane
  rw [any_append, any_cons, any_nil, Bool.or_false]

/-- A lane of the index is the lane of an earlier event or of the new one. -/
theorem lanes_step {start stop : Nat} {lane : UInt8} (ordered : start ≤ stop)
    (isLane : eff.laneAt stop = some lane) (other : UInt8) :
    (∃ event, start ≤ event ∧ event < stop + 1 ∧ eff.laneAt event = some other) ↔
      (∃ event, start ≤ event ∧ event < stop ∧ eff.laneAt event = some other) ∨ lane = other := by
  constructor
  · rintro ⟨event, low, high, isOther⟩
    rcases Nat.lt_succ_iff_lt_or_eq.mp high with before | rfl
    · exact .inl ⟨event, low, before, isOther⟩
    · rw [isLane] at isOther
      exact .inr (Option.some.inj isOther)
  · rintro (⟨event, low, high, isOther⟩ | rfl)
    · exact ⟨event, low, by omega, isOther⟩
    · exact ⟨stop, ordered, by omega, isLane⟩

end LaneEndpointIndex

/-! ### The new lanes of the right arm -/

theorem lane_toNat {lane : Nat} (inside : lane < byteDomain) : (UInt8.ofNat lane).toNat = lane :=
  UInt8.toNat_ofNat_of_lt' inside

/-- The new lanes of some right lanes: a matched one gets its left lane, the others get fresh lanes
in order. -/
structure Remaps (matching : LaneMatching) (base : Nat) (rights : List Nat) (remap : List UInt8)
    (span : Nat) : Prop where
  lower : base ≤ span
  upper : span ≤ byteDomain
  length : remap.length = rights.length
  reused : ∀ (position right left : Nat), rights[position]? = some right →
    matching.rightToLeft right = some left → remap[position]? = some (UInt8.ofNat left)
  fresh : ∀ (position right : Nat), rights[position]? = some right →
    matching.rightToLeft right = none →
    ∃ lane, remap[position]? = some lane ∧ base ≤ lane.toNat ∧ lane.toNat < span
  distinct : ∀ (first second right other : Nat), rights[first]? = some right →
    rights[second]? = some other → matching.rightToLeft right = none →
    matching.rightToLeft other = none → remap[first]? = remap[second]? → first = second
  onto : ∀ lane, base ≤ lane → lane < span → ∃ position right : Nat,
    rights[position]? = some right ∧
    matching.rightToLeft right = none ∧ remap[position]? = some (UInt8.ofNat lane)

variable {base span : Nat} {matching : LaneMatching} {remap : List UInt8}

theorem Remaps.nil (matching : LaneMatching) (inside : base ≤ byteDomain) :
    Remaps matching base [] [] base where
  lower := le_rfl
  upper := inside
  length := rfl
  reused := by rintro _ _ _ ⟨⟩
  fresh := by rintro _ _ ⟨⟩
  distinct := by rintro _ _ _ _ ⟨⟩
  onto := fun lane low high => by omega

variable {rights : List Nat}

/-- A matched right lane takes its left lane. -/
theorem Remaps.cons_reused {right left : Nat} (remaps : Remaps matching base rights remap span)
    (isMatched : matching.rightToLeft right = some left) :
    Remaps matching base (right :: rights) (UInt8.ofNat left :: remap) span where
  lower := remaps.lower
  upper := remaps.upper
  length := congrArg Nat.succ remaps.length
  reused := fun position other found isOther isFound => by
    cases position with
    | zero =>
      cases isOther
      rw [isMatched] at isFound
      rw [← Option.some.inj isFound]
      rfl
    | succ position => exact remaps.reused position other found isOther isFound
  fresh := fun position other isOther unmatched => by
    cases position with
    | zero =>
      cases isOther
      rw [isMatched] at unmatched
      cases unmatched
    | succ position => exact remaps.fresh position other isOther unmatched
  distinct := fun first second one other isOne isOther oneFree otherFree same => by
    cases first with
    | zero =>
      cases isOne
      rw [isMatched] at oneFree
      cases oneFree
    | succ first =>
      cases second with
      | zero =>
        cases isOther
        rw [isMatched] at otherFree
        cases otherFree
      | succ second =>
        exact congrArg Nat.succ
          (remaps.distinct first second one other isOne isOther oneFree otherFree same)
  onto := fun lane low high => by
    obtain ⟨position, other, isOther, unmatched, isLane⟩ := remaps.onto lane low high
    exact ⟨position + 1, other, isOther, unmatched, isLane⟩

/-- An unmatched right lane takes a fresh lane in front of all later ones. -/
theorem Remaps.cons_fresh {right : Nat} (remaps : Remaps matching (base + 1) rights remap span)
    (unmatched : matching.rightToLeft right = none) (inside : base < byteDomain) :
    Remaps matching base (right :: rights) (UInt8.ofNat base :: remap) span := by
  have isBase : (UInt8.ofNat base).toNat = base := lane_toNat inside
  have lower := remaps.lower
  -- No later fresh lane is the first one.
  have later : ∀ position other : Nat, rights[position]? = some other →
      matching.rightToLeft other = none → remap[position]? ≠ some (UInt8.ofNat base) := by
    intro position other isOther otherFree same
    obtain ⟨lane, isLane, low, _⟩ := remaps.fresh position other isOther otherFree
    rw [isLane] at same
    rw [Option.some.inj same, isBase] at low
    omega
  refine ⟨by omega, remaps.upper, congrArg Nat.succ remaps.length, ?_, ?_, ?_, ?_⟩
  · intro position other left isOther isFound
    cases position with
    | zero =>
      cases isOther
      rw [unmatched] at isFound
      cases isFound
    | succ position => exact remaps.reused position other left isOther isFound
  · intro position other isOther otherFree
    cases position with
    | zero => exact ⟨_, rfl, isBase.ge, by omega⟩
    | succ position =>
      obtain ⟨lane, isLane, low, high⟩ := remaps.fresh position other isOther otherFree
      exact ⟨lane, isLane, by omega, high⟩
  · intro first second one other isOne isOther oneFree otherFree same
    cases first with
    | zero =>
      cases second with
      | zero => rfl
      | succ second => exact absurd same.symm (later second other isOther otherFree)
    | succ first =>
      cases second with
      | zero => exact absurd same (later first one isOne oneFree)
      | succ second =>
        exact congrArg Nat.succ
          (remaps.distinct first second one other isOne isOther oneFree otherFree same)
  · intro lane low high
    rcases Nat.eq_or_lt_of_le low with rfl | above
    · exact ⟨0, right, rfl, unmatched, rfl⟩
    · obtain ⟨position, other, isOther, otherFree, isLane⟩ := remaps.onto lane above high
      exact ⟨position + 1, other, isOther, otherFree, isLane⟩

theorem remapLanes_remaps (rights : List Nat) (inside : base ≤ byteDomain)
    (isOk : remapLanes matching base rights = .ok (remap, span)) :
    Remaps matching base rights remap span := by
  induction rights generalizing base remap span with
  | nil =>
    cases isOk
    exact Remaps.nil matching inside
  | cons right rights hyp =>
    rw [remapLanes] at isOk
    split at isOk
    · rename_i left isMatched
      obtain ⟨⟨rest, found⟩, isRest, isOk⟩ := Run.of_bind isOk
      cases isOk
      exact (hyp inside isRest).cons_reused isMatched
    · rename_i unmatched
      split at isOk
      · cases isOk
      · rename_i notFull
        obtain ⟨⟨rest, found⟩, isRest, isOk⟩ := Run.of_bind isOk
        cases isOk
        exact (hyp (by omega) isRest).cons_fresh unmatched (by omega)

/-! ### Merging two arms -/

/-- How a merge moves the lanes of its right arm. -/
structure Moves (move : UInt8 → UInt8) (leftSpan rightSpan span : Nat) : Prop where
  lower : leftSpan ≤ span
  upper : span ≤ byteDomain
  injective : ∀ first second, first.toNat < rightSpan → second.toNat < rightSpan →
    move first = move second → first = second
  inside : ∀ lane, lane.toNat < rightSpan → (move lane).toNat < span
  onto : ∀ lane, leftSpan ≤ lane → lane < span →
    ∃ old : UInt8, old.toNat < rightSpan ∧ (move old).toNat = lane

/-- The new lanes of a sound matching: a left lane is shared only by a matched right lane. -/
theorem Remaps.moves {allows : Nat → Nat → Bool} {leftSpan rightSpan : Nat}
    (leftBound : leftSpan ≤ byteDomain) (rightBound : rightSpan ≤ byteDomain)
    (sound : LaneMatching.Sound allows leftSpan matching)
    (remaps : Remaps matching leftSpan (List.range rightSpan) remap span) :
    Moves (fun lane => remap.getD lane.toNat 0) leftSpan rightSpan span ∧
      ∀ lane : UInt8, lane.toNat < rightSpan → ∀ left < leftSpan,
        remap.getD lane.toNat 0 = UInt8.ofNat left → allows lane.toNat left = true := by
  have isRight : ∀ lane, lane < rightSpan → (List.range rightSpan)[lane]? = some lane :=
    fun lane inside => getElem?_range inside
  have isLane : ∀ left, left < leftSpan → (UInt8.ofNat left).toNat = left := fun left inside =>
    lane_toNat (by omega)
  -- The new lane of a right lane.
  have newLane : ∀ lane : UInt8, lane.toNat < rightSpan →
      (∃ left, matching.rightToLeft lane.toNat = some left ∧ left < leftSpan ∧
        remap.getD lane.toNat 0 = UInt8.ofNat left) ∨
      (matching.rightToLeft lane.toNat = none ∧ leftSpan ≤ (remap.getD lane.toNat 0).toNat ∧
        (remap.getD lane.toNat 0).toNat < span ∧
        remap[lane.toNat]? = some (remap.getD lane.toNat 0)) := by
    intro lane inside
    cases isMatched : matching.rightToLeft lane.toNat with
    | some left =>
      refine .inl ⟨left, rfl, (sound.allowed _ _ isMatched).2, ?_⟩
      rw [getD_eq_getElem?_getD,
        remaps.reused _ _ _ (isRight _ inside) isMatched, Option.getD_some]
    | none =>
      obtain ⟨fresh, isFresh, low, high⟩ := remaps.fresh _ _ (isRight _ inside) isMatched
      rw [getD_eq_getElem?_getD, isFresh, Option.getD_some]
      exact .inr ⟨rfl, low, high, rfl⟩
  refine ⟨⟨remaps.lower, remaps.upper, ?_, ?_, ?_⟩, ?_⟩
  · intro first second firstInside secondInside same
    rcases newLane first firstInside with ⟨left, isLeft, leftInside, isNew⟩ | ⟨free, low, _, isNew⟩
    · rcases newLane second secondInside with ⟨other, isOther, otherInside, isNext⟩ |
        ⟨_, high, _, _⟩
      · rw [isNew, isNext] at same
        have sameLeft := congrArg UInt8.toNat same
        rw [isLane left leftInside, isLane other otherInside] at sameLeft
        rw [← sameLeft] at isOther
        exact UInt8.toNat_inj.mp (sound.injective isLeft isOther)
      · rw [← same, isNew, isLane left leftInside] at high
        omega
    · rcases newLane second secondInside with ⟨other, isOther, otherInside, isNext⟩ |
        ⟨otherFree, high, _, isNext⟩
      · rw [same, isNext, isLane other otherInside] at low
        omega
      · refine UInt8.toNat_inj.mp (remaps.distinct _ _ _ _ (isRight _ firstInside)
          (isRight _ secondInside) free otherFree ?_)
        rw [isNew, isNext, same]
  · intro lane inside
    have lower := remaps.lower
    rcases newLane lane inside with ⟨left, _, leftInside, isNew⟩ | ⟨_, _, high, _⟩
    · rw [isNew, isLane left leftInside]
      omega
    · exact high
  · intro lane low high
    obtain ⟨position, right, isPosition, _, isNew⟩ := remaps.onto lane low high
    have upper := remaps.upper
    have inside : position < rightSpan := by
      by_contra beyond
      rw [getElem?_eq_none (by rw [length_range]; omega)] at isPosition
      cases isPosition
    have isOld : (UInt8.ofNat position).toNat = position := lane_toNat (by omega)
    refine ⟨UInt8.ofNat position, by rw [isOld]; exact inside, ?_⟩
    rw [isOld, getD_eq_getElem?_getD, isNew, Option.getD_some]
    exact lane_toNat (by omega)
  · intro lane inside left leftInside isNew
    rcases newLane lane inside with ⟨other, isOther, otherInside, isNext⟩ | ⟨_, low, _, _⟩
    · rw [isNew] at isNext
      have sameLeft := congrArg UInt8.toNat isNext
      rw [isLane left leftInside, isLane other otherInside] at sameLeft
      rw [sameLeft]
      exact (sound.allowed _ _ isOther).1
    · rw [isNew, isLane left leftInside] at low
      omega

theorem Changed.laneAt {change : Nat → EffAtom → EffAtom} {eff after : EffList}
    (changed : Changed change eff after) (event : Nat) :
    after.laneAt event = (eff.events[event]?).map fun atom => (change event atom).lane := by
  rw [EffList.laneAt, changed.events, Option.map_map]
  rfl

end Hibana
