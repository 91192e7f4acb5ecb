/-
This file says what the merge of two coloured ranges of events does, for every two
ranges: it uses the fewest lanes that a renaming of the right range can use.

The index of a range is exact: a lane has the participants of its events and no
others. So the matching is a largest one between lanes without a common
participant, every right lane that it leaves out takes one fresh lane, and the
merge is refused only when these lanes do not fit the byte that names a lane.
-/

import HibanaChoreography.Lowering.LaneMatchingMaximum
import HibanaChoreography.Lowering.LaneRemaps

namespace Hibana

open Outcome List

/-! ### The participants of a lane -/

theorem includeEndpoints_eq (eff : EffList) (actors : Option ActorImage) (event : Nat)
    (base : Finset UInt8) :
    includeEndpoints eff actors event base =
      (includeEndpoints eff actors event ∅).map (base ∪ ·) := by
  unfold includeEndpoints
  cases actors with
  | some image =>
    dsimp only
    rw [ActorImage.includePossibleActors_eq, ActorImage.includePossibleActors_eq _ _ ∅]
    cases image.possibleActors event with
    | error fault => rfl
    | ok candidates =>
      rw [Run.map_ok, Run.map_ok, Run.map_ok, Finset.empty_union]
  | none =>
    dsimp only
    cases eff.atomAt event with
    | error fault => rfl
    | ok atom =>
      rw [Run.bind_ok, Run.bind_ok, Run.pure_eq_ok, Run.pure_eq_ok, Run.map_ok,
        Finset.union_insert, Finset.union_insert, Finset.union_empty]

/-- The participants of the events of a range. -/
def ParticipantsOf (eff : EffList) (actors : Option ActorImage) (participants : Nat → Finset UInt8)
    (start stop : Nat) : Prop :=
  ∀ event, start ≤ event → event < stop → EventParticipants eff event (participants event) actors

variable {eff : EffList} {participants : Nat → Finset UInt8} {start stop span : Nat}

theorem ParticipantsOf.mono {actors : Option ActorImage} {low high : Nat}
    (isParticipants : ParticipantsOf eff actors participants start stop) (isLow : start ≤ low)
    (isHigh : high ≤ stop) : ParticipantsOf eff actors participants low high :=
  fun event above below => isParticipants event (by omega) (by omega)

namespace LaneEndpointIndex

variable {eff : EffList} {actors : Option ActorImage} {participants : Nat → Finset UInt8}

/-- The index has the lanes of a range, each once, with the participants of its events. -/
structure Exact (index : LaneEndpointIndex) (eff : EffList) (participants : Nat → Finset UInt8)
    (start stop : Nat) : Prop where
  distinct : (index.slots.map Prod.fst).Nodup
  lanes : ∀ lane, index.containsLane lane = true ↔
    ∃ event, start ≤ event ∧ event < stop ∧ eff.laneAt event = some lane
  roles : ∀ lane role, role ∈ index.endpointSet lane ↔
    ∃ event, start ≤ event ∧ event < stop ∧ eff.laneAt event = some lane ∧
      role ∈ participants event

theorem exact_new (start : Nat) : Exact new eff participants start start where
  distinct := nodup_nil
  lanes := fun lane => by
    refine iff_of_false (by rintro ⟨⟩) ?_
    rintro ⟨event, low, high, _⟩
    omega
  roles := fun lane role => by
    refine iff_of_false (by rintro ⟨⟩) ?_
    rintro ⟨event, low, high, _⟩
    omega

variable {index : LaneEndpointIndex} {lane : UInt8} {start stop : Nat}

theorem containsLane_eq_true :
    index.containsLane lane = true ↔ lane ∈ index.slots.map Prod.fst := by
  simp [containsLane]

/-- An index that lacks a lane has room for it. -/
theorem Exact.length_lt (exact : Exact index eff participants start stop)
    (isNew : index.containsLane lane = false) : index.slots.length < byteDomain := by
  have notMem : lane ∉ index.slots.map Prod.fst := by
    rw [← containsLane_eq_true, isNew]
    exact Bool.false_ne_true
  have distinct := (nodup_cons.mpr ⟨notMem, exact.distinct⟩).map
    (fun _ _ same => UInt8.toNat_inj.mp same)
  have subset : (lane :: index.slots.map Prod.fst).map UInt8.toNat ⊆ List.range byteDomain := by
    intro value mem
    obtain ⟨found, _, rfl⟩ := mem_map.mp mem
    exact mem_range.mpr found.toNat_lt
  have bound := (distinct.subperm subset).length_le
  rw [length_map, length_cons, length_map, length_range] at bound
  exact bound

theorem endpointSet_of_new (isNew : index.containsLane lane = false) :
    index.endpointSet lane = ∅ := by
  unfold endpointSet
  rw [find?_eq_none.mpr]
  · rfl
  · exact fun slot mem isSlot =>
      Bool.eq_false_iff.mp isNew (any_eq_true.mpr ⟨slot, mem, isSlot⟩)

theorem includeEvent_exact (exact : Exact index eff participants start stop)
    (ordered : start ≤ stop) (isLane : eff.laneAt stop = some lane)
    (isParticipants : includeEndpoints eff actors stop ∅ = .ok (participants stop)) :
    ∃ next, includeEvent eff actors index stop = .ok next ∧
      Exact next eff participants start (stop + 1) := by
  obtain ⟨atom, isFound, rfl⟩ := Option.map_eq_some_iff.mp isLane
  have isAtom : eff.atomAt stop = .ok atom := by
    rw [EffList.atomAt, isFound]
  -- Whatever the index does with the lane, it has its lanes and participants afterwards.
  have assemble : ∀ next : LaneEndpointIndex, (next.slots.map Prod.fst).Nodup →
      (∀ other, next.containsLane other =
        (index.containsLane other || decide (atom.lane = other))) →
      (∀ other, next.endpointSet other =
        if other = atom.lane then index.endpointSet atom.lane ∪ participants stop
        else index.endpointSet other) →
      Exact next eff participants start (stop + 1) := by
    intro next distinct isContained isSet
    refine ⟨distinct, fun other => ?_, fun other role => ?_⟩
    · rw [isContained, Bool.or_eq_true, decide_eq_true_eq, exact.lanes, lanes_step ordered isLane]
    · rw [isSet]
      constructor
      · intro mem
        split at mem
        · rename_i same
          rcases Finset.mem_union.mp mem with earlier | isLast
          · obtain ⟨event, low, high, isEvent, isRole⟩ := (exact.roles _ _).mp earlier
            exact ⟨event, low, by omega, same ▸ isEvent, isRole⟩
          · exact ⟨stop, ordered, by omega, same ▸ isLane, isLast⟩
        · obtain ⟨event, low, high, isEvent, isRole⟩ := (exact.roles _ _).mp mem
          exact ⟨event, low, by omega, isEvent, isRole⟩
      · rintro ⟨event, low, high, isEvent, isRole⟩
        rcases Nat.lt_succ_iff_lt_or_eq.mp high with before | rfl
        · have earlier := (exact.roles other role).mpr ⟨event, low, before, isEvent, isRole⟩
          split
          · rename_i same
            exact Finset.mem_union_left _ (same ▸ earlier)
          · exact earlier
        · rw [isLane] at isEvent
          rw [if_pos (Option.some.inj isEvent).symm]
          exact Finset.mem_union_right _ isRole
  unfold includeEvent
  rw [isAtom, Run.bind_ok]
  split
  · rename_i isContained
    rw [includeEndpoints_eq, isParticipants, Run.map_ok, Run.bind_ok]
    refine ⟨_, rfl, assemble _ ?_ (fun other => ?_) fun other =>
      endpointSet_replace index.slots atom.lane _ isContained other⟩
    · rw [map_map, show Prod.fst ∘ _ = Prod.fst from ?_]
      · exact exact.distinct
      · funext slot
        dsimp only [Function.comp]
        split <;> rfl
    · rw [containsLane_replace]
      rcases eq_or_ne atom.lane other with rfl | differs
      · rw [isContained, Bool.true_or]
      · rw [decide_eq_false differs, Bool.or_false]
  · rename_i notContained
    rw [Bool.not_eq_true] at notContained
    rw [if_neg (Nat.not_le_of_lt (exact.length_lt notContained)), isParticipants, Run.bind_ok]
    have isEmpty := endpointSet_of_new notContained
    refine ⟨_, rfl, assemble _ ?_ (containsLane_append index.slots atom.lane · _) fun other => ?_⟩
    · rw [map_append]
      refine exact.distinct.append (nodup_singleton _) ?_
      intro found mem isLast
      rw [map_singleton, mem_singleton] at isLast
      rw [isLast, ← containsLane_eq_true, notContained] at mem
      exact Bool.false_ne_true mem
    · rw [isEmpty, Finset.empty_union]
      exact endpointSet_append index.slots atom.lane _ notContained other

/-- The index of a range is found and is exact. -/
theorem fromRange_exact (compact : eff.capacity ≤ 65535) (ordered : start ≤ stop)
    (inside : stop ≤ eff.len) (isParticipants : ParticipantsOf eff actors participants start stop) :
    ∃ index, fromRange eff actors start stop = .ok index ∧
      Exact index eff participants start stop := by
  have fold : ∀ (count middle : Nat) (before : LaneEndpointIndex),
      start ≤ middle → middle + count = stop → Exact before eff participants start middle →
      ∃ after, (List.range' middle count).foldlM (includeEvent eff actors) before = .ok after ∧
        Exact after eff participants start stop := by
    intro count
    induction count with
    | zero =>
      rintro middle before _ rfl exact
      exact ⟨before, rfl, exact⟩
    | succ count hyp =>
      intro middle before low isStop exact
      have isPresent : middle < eff.events.length := by
        change stop ≤ eff.events.length at inside
        omega
      obtain ⟨next, isNext, nextExact⟩ := includeEvent_exact exact low
        (by rw [EffList.laneAt, getElem?_eq_getElem isPresent, Option.map_some])
        (includeEndpoints_eq_ok_iff.mpr (isParticipants middle low (by omega)))
      rw [range'_succ, foldlM_cons, isNext]
      exact hyp (middle + 1) next (by omega) (by omega) nextExact
  unfold fromRange
  rw [if_neg (by omega)]
  exact fold (stop - start) start new le_rfl (by omega) (exact_new start)

end LaneEndpointIndex

/-! ### The fresh lanes -/

/-- Every right lane without a left lane takes one fresh lane. -/
theorem remapLanes_total (matching : LaneMatching) (rights : List Nat) (base : Nat) :
    (base + rights.countP (fun right => (matching.rightToLeft right).isNone) ≤ byteDomain →
      ∃ remap, remapLanes matching base rights =
        .ok (remap, base + rights.countP fun right => (matching.rightToLeft right).isNone)) ∧
    (base ≤ byteDomain →
      byteDomain < base + rights.countP (fun right => (matching.rightToLeft right).isNone) →
      remapLanes matching base rights =
        .error (.panic "parallel endpoint lane coloring exceeds wire domain")) := by
  induction rights generalizing base with
  | nil =>
    refine ⟨fun _ => ⟨[], rfl⟩, fun fits exceeds => ?_⟩
    rw [countP_nil] at exceeds
    omega
  | cons right rights hyp =>
    rw [remapLanes, countP_cons]
    cases isMatched : matching.rightToLeft right with
    | some left =>
      obtain ⟨fits, exceeds⟩ := hyp base
      refine ⟨fun bound => ?_, fun low high => ?_⟩
      · obtain ⟨remap, isRemap⟩ := fits bound
        rw [isRemap]
        exact ⟨_, rfl⟩
      · rw [exceeds low high]
        rfl
    | none =>
      simp only [Option.isNone_none, if_true]
      obtain ⟨fits, exceeds⟩ := hyp (base + 1)
      refine ⟨fun bound => ?_, fun low high => ?_⟩
      · obtain ⟨remap, isRemap⟩ := fits (by omega)
        rw [if_neg (by omega), isRemap, Nat.add_right_comm, Nat.add_assoc]
        exact ⟨_, rfl⟩
      · split
        · rfl
        · rw [exceeds (by omega) (by omega)]
          rfl

theorem foldlM_remapEvent_total (remap : List UInt8) (count start : Nat) (eff : EffList)
    (inside : start + count ≤ eff.len) :
    ∃ after, (List.range' start count).foldlM (remapEvent remap) eff = .ok after := by
  induction count generalizing start eff with
  | zero => exact ⟨eff, rfl⟩
  | succ count hyp =>
    have isPresent : start < eff.events.length := by
      change _ ≤ eff.events.length at inside
      omega
    have isNext : remapEvent remap eff start = .ok { eff with
        events := eff.events.set start (eff.events[start].relane remap) } := by
      unfold remapEvent EffList.atomAt EffList.replaceAtom
      rw [getElem?_eq_getElem isPresent]
      exact if_neg (Nat.not_le_of_lt isPresent)
    rw [range'_succ, foldlM_cons, isNext]
    refine hyp (start + 1) _ ?_
    change _ ≤ (eff.events.set _ _).length
    rw [length_set]
    change _ ≤ eff.events.length at inside
    omega

/-! ### Merging two ranges -/

/-- The lanes of a range of events are the lanes below a span. -/
structure ColouredRange (eff : EffList) (start stop span : Nat) : Prop where
  inside : ∀ event, start ≤ event → event < stop →
    ∃ lane, eff.laneAt event = some lane ∧ lane.toNat < span
  dense : ∀ lane, lane < span →
    ∃ event, start ≤ event ∧ event < stop ∧ eff.laneAt event = some (UInt8.ofNat lane)

theorem ColouredRange.span_pos (coloured : ColouredRange eff start stop span)
    (ordered : start < stop) : 0 < span := by
  obtain ⟨lane, _, below⟩ := coloured.inside start le_rfl ordered
  omega

theorem ColouredRange.validateLaneSpan (coloured : ColouredRange eff start stop span)
    (events : List Nat) (inRange : ∀ event ∈ events, start ≤ event ∧ event < stop) :
    validateLaneSpan eff span events = .ok () := by
  induction events with
  | nil => rfl
  | cons event events hyp =>
    obtain ⟨low, high⟩ := inRange event mem_cons_self
    obtain ⟨lane, isLane, below⟩ := coloured.inside event low high
    obtain ⟨atom, isFound, rfl⟩ := Option.map_eq_some_iff.mp isLane
    rw [Hibana.validateLaneSpan, EffList.atomAt, isFound]
    rw [Run.bind_ok, if_neg (Nat.not_le_of_lt below)]
    exact hyp fun other mem => inRange other (mem_cons_of_mem _ mem)

theorem ColouredRange.validateDenseLaneClasses (coloured : ColouredRange eff start stop span)
    {index : LaneEndpointIndex} (exact : index.Exact eff participants start stop) :
    validateDenseLaneClasses index span = .ok () := by
  refine if_pos (all_eq_true.mpr fun lane mem => ?_)
  exact (exact.lanes _).mpr (coloured.dense lane (mem_range.mp mem))

/-- A right lane may share a left lane: no event of the one has a participant of the other. -/
def MayShareLane (eff : EffList) (participants : Nat → Finset UInt8)
    (leftStart leftEnd rightEnd right left : Nat) : Prop :=
  ∀ first second, leftStart ≤ first → first < leftEnd → leftEnd ≤ second → second < rightEnd →
    eff.laneAt first = some (UInt8.ofNat left) → eff.laneAt second = some (UInt8.ofNat right) →
    Disjoint (participants first) (participants second)

theorem disjoint_endpointSet_iff {leftStart leftEnd rightEnd right left : Nat}
    {leftIndex rightIndex : LaneEndpointIndex}
    (leftExact : leftIndex.Exact eff participants leftStart leftEnd)
    (rightExact : rightIndex.Exact eff participants leftEnd rightEnd) :
    Disjoint (rightIndex.endpointSet (UInt8.ofNat right))
        (leftIndex.endpointSet (UInt8.ofNat left)) ↔
      MayShareLane eff participants leftStart leftEnd rightEnd right left := by
  constructor
  · intro disjoint first second firstLow firstHigh secondLow secondHigh isFirst isSecond
    refine Finset.disjoint_left.mpr fun role inFirst inSecond => ?_
    exact Finset.disjoint_left.mp disjoint
      ((rightExact.roles _ _).mpr ⟨second, secondLow, secondHigh, isSecond, inSecond⟩)
      ((leftExact.roles _ _).mpr ⟨first, firstLow, firstHigh, isFirst, inFirst⟩)
  · intro mayShare
    refine Finset.disjoint_left.mpr fun role inRight inLeft => ?_
    obtain ⟨second, secondLow, secondHigh, isSecond, inSecond⟩ := (rightExact.roles _ _).mp inRight
    obtain ⟨first, firstLow, firstHigh, isFirst, inFirst⟩ := (leftExact.roles _ _).mp inLeft
    exact Finset.disjoint_left.mp
      (mayShare first second firstLow firstHigh secondLow secondHigh isFirst isSecond)
      inFirst inSecond

/-- What a merge of two coloured ranges leaves: the right range on renamed lanes and nothing else
changed, no lane with a common participant of both ranges, and dense lanes. -/
structure MergedRange (eff after : EffList) (participants : Nat → Finset UInt8)
    (leftStart leftEnd rightEnd rightSpan span : Nat) (rename : UInt8 → UInt8) : Prop where
  changed : Changed (fun event atom =>
    if leftEnd ≤ event ∧ event < rightEnd then { atom with lane := rename atom.lane } else atom)
      eff after
  injective : ∀ first second, first.toNat < rightSpan → second.toNat < rightSpan →
    rename first = rename second → first = second
  separate : ∀ first second, leftStart ≤ first → first < leftEnd → leftEnd ≤ second →
    second < rightEnd → after.laneAt first = after.laneAt second →
    Disjoint (participants first) (participants second)
  coloured : ColouredRange after leftStart rightEnd span

theorem mergedRange_of_moves {eff after : EffList}
    {leftStart leftEnd rightEnd leftSpan rightSpan span : Nat} {remap : List UInt8}
    (leftColoured : ColouredRange eff leftStart leftEnd leftSpan)
    (rightColoured : ColouredRange eff leftEnd rightEnd rightSpan) (ordered : leftStart ≤ leftEnd)
    (rightOrdered : leftEnd ≤ rightEnd)
    (moves : Moves (fun lane => remap.getD lane.toNat 0) leftSpan rightSpan span)
    (shares : ∀ lane : UInt8, lane.toNat < rightSpan → ∀ left < leftSpan,
      remap.getD lane.toNat 0 = UInt8.ofNat left →
      MayShareLane eff participants leftStart leftEnd rightEnd lane.toNat left)
    (changed : Changed (fun event atom =>
      if leftEnd ≤ event ∧ event < leftEnd + (rightEnd - leftEnd) then atom.relane remap
      else atom) eff after) :
    MergedRange eff after participants leftStart leftEnd rightEnd rightSpan span
      fun lane => remap.getD lane.toNat 0 := by
  have isChanged : Changed (fun event atom => if leftEnd ≤ event ∧ event < rightEnd then
      { atom with lane := remap.getD atom.lane.toNat 0 } else atom) eff after := by
    refine ⟨changed.rest, fun event => ?_⟩
    rw [changed.events]
    congr 1
    funext atom
    exact if_congr (by omega) rfl rfl
  have leftLane : ∀ event, event < leftEnd → after.laneAt event = eff.laneAt event := by
    intro event before
    rw [isChanged.laneAt]
    simp only [if_neg (show ¬(leftEnd ≤ event ∧ event < rightEnd) by omega)]
    rfl
  have rightLane : ∀ event lane, leftEnd ≤ event → event < rightEnd →
      eff.laneAt event = some lane → after.laneAt event = some (remap.getD lane.toNat 0) := by
    intro event lane low high isLane
    obtain ⟨atom, isFound, rfl⟩ := Option.map_eq_some_iff.mp isLane
    rw [isChanged.laneAt, isFound, Option.map_some, if_pos ⟨low, high⟩]
  refine ⟨isChanged, moves.injective, ?_, ?_, ?_⟩
  · intro first second firstLow firstHigh secondLow secondHigh same
    obtain ⟨lane, isLane, below⟩ := leftColoured.inside first firstLow firstHigh
    obtain ⟨other, isOther, otherBelow⟩ := rightColoured.inside second secondLow secondHigh
    rw [leftLane first firstHigh, isLane, rightLane second other secondLow secondHigh
      isOther] at same
    refine shares other otherBelow lane.toNat below ?_ first second firstLow firstHigh secondLow
      secondHigh ?_ ?_
    · rw [UInt8.ofNat_toNat]
      exact (Option.some.inj same).symm
    · rw [UInt8.ofNat_toNat, isLane]
    · rw [UInt8.ofNat_toNat, isOther]
  · intro event low high
    by_cases isLeft : event < leftEnd
    · obtain ⟨lane, isLane, below⟩ := leftColoured.inside event low isLeft
      exact ⟨lane, by rw [leftLane event isLeft, isLane], Nat.lt_of_lt_of_le below moves.lower⟩
    · obtain ⟨lane, isLane, below⟩ := rightColoured.inside event (by omega) high
      exact ⟨_, rightLane event lane (by omega) high isLane, moves.inside lane below⟩
  · intro lane below
    by_cases isLeft : lane < leftSpan
    · obtain ⟨event, low, high, isLane⟩ := leftColoured.dense lane isLeft
      exact ⟨event, low, by omega, by rw [leftLane event high, isLane]⟩
    · obtain ⟨old, oldBelow, isNew⟩ := moves.onto lane (by omega) below
      obtain ⟨event, low, high, isLane⟩ := rightColoured.dense old.toNat oldBelow
      rw [UInt8.ofNat_toNat] at isLane
      refine ⟨event, by omega, high, ?_⟩
      rw [rightLane event old low high isLane, ← isNew, UInt8.ofNat_toNat]

/-- The merge of two coloured ranges uses as few lanes as an injective renaming of the right lanes
can, and is refused only when there are more than a byte can name. -/
theorem mergeParallelLanes_uses_fewest_lanes {eff : EffList} {actors : Option ActorImage}
    {participants : Nat → Finset UInt8} {leftStart leftEnd rightEnd leftSpan rightSpan : Nat}
    (compact : eff.capacity ≤ 65535) (leftNonempty : leftStart < leftEnd)
    (rightNonempty : leftEnd < rightEnd) (inside : rightEnd ≤ eff.len)
    (leftBound : leftSpan ≤ byteDomain) (rightBound : rightSpan ≤ byteDomain)
    (leftColoured : ColouredRange eff leftStart leftEnd leftSpan)
    (rightColoured : ColouredRange eff leftEnd rightEnd rightSpan)
    (isParticipants : ParticipantsOf eff actors participants leftStart rightEnd) :
    ∃ size, Matching.IsMaximum (MayShareLane eff participants leftStart leftEnd rightEnd)
        (Finset.range rightSpan) (Finset.range leftSpan) size ∧
      (∀ rename : Nat → Nat, Set.InjOn rename (Finset.range rightSpan : Set Nat) →
        (∀ right ∈ Finset.range rightSpan, rename right ∈ Finset.range leftSpan →
          MayShareLane eff participants leftStart leftEnd rightEnd right (rename right)) →
        leftSpan + rightSpan - size ≤
          (Finset.range leftSpan ∪ (Finset.range rightSpan).image rename).card) ∧
      (leftSpan + rightSpan - size ≤ byteDomain → ∃ after rename,
        mergeParallelLanes eff actors leftStart leftEnd rightEnd leftSpan rightSpan =
          .ok (leftSpan + rightSpan - size, after) ∧
        MergedRange eff after participants leftStart leftEnd rightEnd rightSpan
          (leftSpan + rightSpan - size) rename) ∧
      (byteDomain < leftSpan + rightSpan - size →
        mergeParallelLanes eff actors leftStart leftEnd rightEnd leftSpan rightSpan =
          .error (.panic "parallel endpoint lane coloring exceeds wire domain")) := by
  have leftPos := leftColoured.span_pos leftNonempty
  have rightPos := rightColoured.span_pos rightNonempty
  obtain ⟨left, isLeft, leftExact⟩ := LaneEndpointIndex.fromRange_exact compact leftNonempty.le
    (by omega) (isParticipants.mono le_rfl rightNonempty.le)
  obtain ⟨right, isRight, rightExact⟩ := LaneEndpointIndex.fromRange_exact compact rightNonempty.le
    inside (isParticipants.mono leftNonempty.le le_rfl)
  let allows : Nat → Nat → Bool := fun rightLane leftLane => Disjoint
    (right.endpointSet (UInt8.ofNat rightLane)) (left.endpointSet (UInt8.ofNat leftLane))
  have found : ∃ matching, LaneMatching.maximum allows leftSpan rightSpan = .ok matching ∧
      LaneMatching.Saturated allows leftSpan matching rightSpan :=
    LaneMatching.maximum_saturated leftBound rightBound
  obtain ⟨matching, isMatching, saturated⟩ := found
  -- The merge reads the coloured ranges and comes to the new lanes.
  have reads : mergeParallelLanes eff actors leftStart leftEnd rightEnd leftSpan rightSpan = (do
      let remapped ← remapLanes matching leftSpan (List.range rightSpan)
      let eff ← (List.range' leftEnd (rightEnd - leftEnd)).foldlM (remapEvent remapped.1) eff
      return (remapped.2, eff)) := by
    unfold mergeParallelLanes
    rw [if_neg (by omega), if_neg (by omega), leftColoured.validateLaneSpan _ (fun event mem => by
        have := mem_range'_1.mp mem
        omega), Run.bind_ok,
      rightColoured.validateLaneSpan _ (fun event mem => by
        have := mem_range'_1.mp mem
        omega), Run.bind_ok, isLeft, Run.bind_ok, isRight, Run.bind_ok,
      leftColoured.validateDenseLaneClasses leftExact, Run.bind_ok,
      rightColoured.validateDenseLaneClasses rightExact, Run.bind_ok, isMatching, Run.bind_ok]
  have isMaximum := saturated.isMaximum
  simp only [allows, decide_eq_true_eq, disjoint_endpointSet_iff leftExact rightExact] at isMaximum
  have counts := saturated.card_pairs
  have isSpan : leftSpan + rightSpan - (matching.pairs leftSpan rightSpan).card = leftSpan +
      (List.range rightSpan).countP (fun right => (matching.rightToLeft right).isNone) := by
    omega
  obtain ⟨fits, exceeds⟩ := remapLanes_total matching (List.range rightSpan) leftSpan
  refine ⟨(matching.pairs leftSpan rightSpan).card, isMaximum, fun rename injective reuses => ?_,
    fun bound => ?_, fun beyond => ?_⟩
  · have fewest := isMaximum.le_card_of_renaming injective reuses
    rwa [Finset.card_range, Finset.card_range] at fewest
  · rw [isSpan] at bound ⊢
    obtain ⟨remap, isRemap⟩ := fits bound
    obtain ⟨after, isAfter⟩ := foldlM_remapEvent_total remap (rightEnd - leftEnd) leftEnd eff
      (by omega)
    obtain ⟨moves, shares⟩ := (remapLanes_remaps _ leftBound isRemap).moves leftBound rightBound
      saturated.sound
    refine ⟨after, _, ?_, mergedRange_of_moves leftColoured rightColoured
      leftNonempty.le rightNonempty.le moves (fun lane below other otherBelow isNew => ?_)
      (foldlM_remapEvent _ isAfter)⟩
    · rw [reads, isRemap, Run.bind_ok]
      dsimp only
      rw [isAfter, Run.bind_ok]
      rfl
    · exact (disjoint_endpointSet_iff leftExact rightExact).mp
        (of_decide_eq_true (shares lane below other otherBelow isNew))
  · rw [isSpan] at beyond
    rw [reads, exceeds leftBound beyond]
    rfl

/-- One event between the first two roles, and two events of which the second has other roles. -/
def twoColouredArms : EffList where
  events := [⟨0, 1, 0, .wire 0, 0⟩, ⟨0, 2, 0, .wire 0, 0⟩, ⟨3, 4, 0, .wire 0, 1⟩]
  markers := []
  resolvers := []
  capacity := 3
  eventCapacity := 3
  markerCapacity := 0
  resolverCapacity := 0

theorem twoColouredArms_left : ColouredRange twoColouredArms 0 1 1 where
  inside := fun event _ high => by
    obtain rfl : event = 0 := by omega
    exact ⟨0, rfl, by decide⟩
  dense := fun lane below => by
    obtain rfl : lane = 0 := by omega
    exact ⟨0, by decide, by decide, rfl⟩

theorem twoColouredArms_right : ColouredRange twoColouredArms 1 3 2 where
  inside := fun event low high => by
    obtain rfl | rfl : event = 1 ∨ event = 2 := by omega
    · exact ⟨0, rfl, by decide⟩
    · exact ⟨1, rfl, by decide⟩
  dense := fun lane below => by
    obtain rfl | rfl : lane = 0 ∨ lane = 1 := by omega
    · exact ⟨1, by decide, by decide, rfl⟩
    · exact ⟨2, by decide, by decide, rfl⟩

def twoColouredArmsParticipants (event : Nat) : Finset UInt8 :=
  if event = 0 then {0, 1} else if event = 1 then {0, 2} else {3, 4}

theorem twoColouredArms_participants :
    ParticipantsOf twoColouredArms none twoColouredArmsParticipants 0 3 := by
  intro event _ high
  obtain rfl | rfl | rfl : event = 0 ∨ event = 1 ∨ event = 2 := by omega
  · exact ⟨_, rfl, rfl⟩
  · exact ⟨_, rfl, rfl⟩
  · exact ⟨_, rfl, rfl⟩

theorem twoColouredArms_use_fewest_lanes :
    ∃ size, Matching.IsMaximum (MayShareLane twoColouredArms twoColouredArmsParticipants 0 1 3)
        (Finset.range 2) (Finset.range 1) size ∧
      (1 + 2 - size ≤ byteDomain → ∃ after rename,
        mergeParallelLanes twoColouredArms none 0 1 3 1 2 = .ok (1 + 2 - size, after) ∧
        MergedRange twoColouredArms after twoColouredArmsParticipants 0 1 3 2 (1 + 2 - size)
          rename) := by
  obtain ⟨size, isMaximum, _, fits, _⟩ :=
    mergeParallelLanes_uses_fewest_lanes (by decide : twoColouredArms.capacity ≤ 65535)
      (by decide : 0 < 1) (by decide : 1 < 3) (by decide) (by decide) (by decide)
      twoColouredArms_left twoColouredArms_right twoColouredArms_participants
  exact ⟨size, isMaximum, fits⟩

end Hibana
