/-
This file is about parent pointers of nested intervals that stand in preorder.

The pointers are found by painting: every interval in turn covers its positions,
and its parent is the interval that was seen at its start. What is seen in the
end at a position is the innermost interval there, and following the parents lists
the intervals that hold the position from the innermost to the outermost. A walk
that always moves the later of two intervals to its parent stops at the innermost
interval that holds two positions.
-/

import HibanaChoreography.Library.Run
import Mathlib.Data.List.Basic
import Mathlib.Data.List.Induction

namespace Ancestry

open Outcome List

/-! ### Walks along parents -/

section

variable (parent : Nat → Option (Option Nat))

/-- The parent of an index; a root and an index outside have none to read. -/
def parentOf : Option Nat → Run (Option Nat)
  | none => .error (.panic "index out of bounds")
  | some index =>
    match parent index with
    | none => .error (.panic "index out of bounds")
    | some next => .ok next

/-- Whether the walk along parents meets an index. -/
def meets (target : Nat) : Nat → Option Nat → Run Bool
  | 0, _ => .error .fuel
  | fuel + 1, index => do
    if index = none then return false
    else if index = some target then return true
    else meets target fuel (← parentOf parent index)

/-- The second of two different indices is the later one; no index is in front of all. -/
def secondLater : Option Nat → Option Nat → Bool
  | none, _ => true
  | some _, none => false
  | some first, some second => first < second

/-- Move the later of two indices to its parent until they agree. -/
def lowestCommon : Nat → Option Nat → Option Nat → Run (Option Nat)
  | 0, _, _ => .error .fuel
  | fuel + 1, first, second => do
    if first = second then return first
    else if secondLater first second then
      lowestCommon fuel first (← parentOf parent second)
    else lowestCommon fuel (← parentOf parent first) second

/-- The walk along parents passes these indices, each below the one before. -/
inductive Path : Option Nat → List Nat → Prop
  | root : Path none []
  | step {index : Nat} {next : Option Nat} {rest : List Nat} (isNext : parent index = some next)
      (path : Path next rest) (below : ∀ outer ∈ rest, outer < index) :
      Path (some index) (index :: rest)

end

namespace Path

variable {parent : Nat → Option (Option Nat)} {indices : List Nat}

theorem meets_eq {index : Option Nat} (path : Path parent index indices) (target : Nat) {fuel : Nat}
    (enough : indices.length < fuel) :
    meets parent target fuel index = .ok (decide (target ∈ indices)) := by
  induction path generalizing fuel with
  | root =>
    cases fuel with
    | zero => cases enough
    | succ fuel => rfl
  | @step index next rest isNext path below hyp =>
    cases fuel with
    | zero => cases enough
    | succ fuel =>
      rw [meets, if_neg (Option.some_ne_none index)]
      by_cases isTarget : index = target
      · rw [if_pos (congrArg some isTarget), isTarget, decide_eq_true mem_cons_self]
        rfl
      · rw [if_neg fun same => isTarget (Option.some.inj same), parentOf, isNext]
        refine (hyp (Nat.lt_of_succ_lt_succ enough)).trans ?_
        simp only [mem_cons, Ne.symm isTarget, false_or]

theorem le_head {index : Nat} (path : Path parent (some index) indices) {outer : Nat}
    (mem : outer ∈ indices) : outer ≤ index := by
  cases path with
  | step isNext path below =>
    rcases mem_cons.mp mem with rfl | inRest
    · exact Nat.le_refl _
    · exact Nat.le_of_lt (below outer inRest)

/-- The walk from two indices stops at the first index of the one path that is on the other. -/
theorem lowestCommon_eq {first second : Option Nat} {firsts seconds : List Nat}
    (firstPath : Path parent first firsts) (secondPath : Path parent second seconds) {fuel : Nat}
    (enough : firsts.length + seconds.length < fuel) :
    lowestCommon parent fuel first second =
      .ok (firsts.filter fun index => index ∈ seconds).head? := by
  induction fuel generalizing first second firsts seconds with
  | zero => cases enough
  | succ fuel hyp =>
    rw [lowestCommon]
    cases firstPath with
    | root =>
      cases secondPath with
      | root => rfl
      | step isNext path below =>
        rw [if_neg (Option.some_ne_none _).symm, secondLater, if_pos rfl, parentOf, isNext]
        exact (hyp Path.root path (by simp only [length_cons] at enough ⊢; omega)).trans rfl
    | @step first next firstRest isNext path below =>
      cases secondPath with
      | root =>
        rw [if_neg (Option.some_ne_none _), secondLater, if_neg Bool.false_ne_true, parentOf,
          isNext]
        refine (hyp path Path.root (by simp only [length_cons] at enough ⊢; omega)).trans ?_
        simp only [not_mem_nil, decide_false, filter_false]
      | @step second other secondRest isOther otherPath otherBelow =>
        by_cases same : first = second
        · subst same
          rw [if_pos rfl, filter_cons, if_pos (decide_eq_true mem_cons_self)]
          rfl
        · rw [if_neg fun equal => same (Option.some.inj equal), secondLater]
          by_cases later : first < second
          · rw [if_pos (decide_eq_true later), parentOf, isOther]
            refine (hyp (Path.step isNext path below) otherPath
              (by simp only [length_cons] at enough ⊢; omega)).trans ?_
            congr 2
            refine filter_congr fun index mem => decide_eq_decide.mpr ?_
            have notSecond : index ≠ second := by
              have bound := (Path.step isNext path below).le_head mem
              omega
            simp only [mem_cons, notSecond, false_or]
          · rw [if_neg fun isLater => later (of_decide_eq_true isLater), parentOf, isNext]
            refine (hyp path (Path.step isOther otherPath otherBelow)
              (by simp only [length_cons] at enough ⊢; omega)).trans ?_
            rw [filter_cons_of_neg]
            intro isMember
            have bound := (Path.step isOther otherPath otherBelow).le_head
              (of_decide_eq_true isMember)
            omega

end Path

/-! ### Painting intervals -/

section

variable {Item : Type} (start stop : Item → Nat)

/-- The interval holds the position. -/
def Holds (item : Item) (position : Nat) : Prop := start item ≤ position ∧ position < stop item

instance (item : Item) (position : Nat) : Decidable (Holds start stop item position) :=
  inferInstanceAs (Decidable (_ ∧ _))

/-- The indices of the intervals that hold a position, the last first. -/
def holders (items : List Item) (position : Nat) : List Nat :=
  ((List.range items.length).filter fun index =>
    items[index]?.any fun item => Holds start stop item position).reverse

/-- Every interval was painted in turn: what is seen at each position, and the parents. -/
structure Painted (items : List Item) (seen : Nat → Option Nat) (parents : List (Option Nat)) :
    Prop where
  seen : ∀ position, seen position = (holders start stop items position).head?
  length : parents.length = items.length
  parent : ∀ index item, items[index]? = some item →
    parents[index]? = some (holders start stop (items.take index) (start item)).head?

end

/-- A later interval lies inside an earlier one or behind it. -/
def Nested {Item : Type} (start stop : Item → Nat) (items : List Item) : Prop :=
  items.Pairwise fun first second => start first ≤ start second ∧
    (stop second ≤ stop first ∨ stop first ≤ start second)

variable {Item : Type} {start stop : Item → Nat} {items : List Item} {position index : Nat}

theorem mem_holders :
    index ∈ holders start stop items position ↔
      ∃ item, items[index]? = some item ∧ Holds start stop item position := by
  rw [holders, mem_reverse, mem_filter, mem_range, Option.any_eq_true]
  constructor
  · rintro ⟨_, item, isItem, holds⟩
    exact ⟨item, isItem, of_decide_eq_true holds⟩
  · rintro ⟨item, isItem, holds⟩
    exact ⟨(List.getElem?_eq_some_iff.mp isItem).1, item, isItem, decide_eq_true holds⟩

theorem holders_append_singleton (items : List Item) (item : Item) (position : Nat) :
    holders start stop (items ++ [item]) position =
      if Holds start stop item position then items.length :: holders start stop items position
      else holders start stop items position := by
  have front : (List.range items.length).filter (fun index =>
        (items ++ [item])[index]?.any fun item => Holds start stop item position) =
      (List.range items.length).filter fun index =>
        items[index]?.any fun item => Holds start stop item position :=
    filter_congr fun index inside => by
      rw [getElem?_append_left (mem_range.mp inside)]
  unfold holders
  rw [length_append, length_singleton, range_succ, filter_append, front,
    reverse_append]
  by_cases holds : Holds start stop item position
  · rw [if_pos holds, filter_cons_of_pos (by simpa using holds)]
    rfl
  · rw [if_neg holds, filter_cons_of_neg (by simpa using holds)]
    rfl

theorem holders_lt (mem : index ∈ holders start stop items position) : index < items.length := by
  obtain ⟨item, isItem, _⟩ := mem_holders.mp mem
  exact (List.getElem?_eq_some_iff.mp isItem).1

/-- The indices of the holders descend. -/
theorem holders_pairwise (start stop : Item → Nat) (items : List Item) (position : Nat) :
    (holders start stop items position).Pairwise (· > ·) := by
  rw [holders, pairwise_reverse]
  exact pairwise_lt_range.filter _

/-- An interval is the first holder when it holds the position and none behind it does. -/
theorem head?_holders_eq_length {position : Nat} {front after : List Item} {item : Item} :
    (holders start stop (front ++ item :: after) position).head? = some front.length ↔
      Holds start stop item position ∧ ∀ later ∈ after, ¬ Holds start stop later position := by
  induction after using List.reverseRecOn with
  | nil =>
    rw [holders_append_singleton]
    split
    · rename_i holds
      exact iff_of_true rfl ⟨holds, nofun⟩
    · rename_i notHolds
      refine iff_of_false (fun isHead => ?_) fun both => notHolds both.1
      exact Nat.lt_irrefl _ (holders_lt (mem_of_head? isHead))
  | append_singleton after last hyp =>
    rw [← cons_append, ← append_assoc, holders_append_singleton, forall_mem_append,
      forall_mem_singleton]
    split
    · rename_i holds
      refine iff_of_false (fun isHead => ?_) fun both => both.2.2 holds
      have isLength := Option.some.inj isHead
      rw [length_append, length_cons] at isLength
      omega
    · rename_i notHolds
      rw [hyp]
      exact and_congr_right' (and_iff_left notHolds).symm

theorem head?_holders_eq_none {position : Nat} :
    (holders start stop items position).head? = none ↔
      ∀ item ∈ items, ¬ Holds start stop item position := by
  rw [head?_eq_none_iff, eq_nil_iff_forall_not_mem]
  constructor
  · intro noHolder item mem holds
    obtain ⟨index, isItem⟩ := mem_iff_getElem?.mp mem
    exact noHolder index (mem_holders.mpr ⟨item, isItem, holds⟩)
  · intro noneHolds index mem
    obtain ⟨item, isItem, holds⟩ := mem_holders.mp mem
    exact noneHolds item (mem_of_getElem? isItem) holds

theorem length_holders_le (items : List Item) (position : Nat) :
    (holders start stop items position).length ≤ items.length := by
  rw [holders, length_reverse]
  exact Nat.le_trans (length_filter_le _ _) (Nat.le_of_eq length_range)

namespace Painted

variable {seen : Nat → Option Nat} {parents : List (Option Nat)}

theorem nil : Painted start stop [] (fun _ => none) [] where
  seen := fun _ => rfl
  length := rfl
  parent := by rintro index item ⟨⟩

/-- Paint one more interval. -/
theorem paint (painted : Painted start stop items seen parents) (item : Item) :
    Painted start stop (items ++ [item])
      (fun position => if Holds start stop item position then some items.length else seen position)
      (parents ++ [seen (start item)]) where
  seen := fun position => by
    rw [holders_append_singleton, painted.seen]
    split <;> rfl
  length := by simp only [length_append, painted.length, length_singleton]
  parent := fun index found isFound => by
    rcases Nat.lt_or_ge index items.length with before | last
    · rw [getElem?_append_left before] at isFound
      rw [getElem?_append_left (painted.length ▸ before),
        take_append_of_le_length (Nat.le_of_lt before)]
      exact painted.parent index found isFound
    · have inside := (List.getElem?_eq_some_iff.mp isFound).1
      rw [length_append, length_singleton] at inside
      obtain rfl : index = items.length := by omega
      rw [getElem?_concat_length] at isFound
      cases isFound
      rw [take_left, ← painted.length, getElem?_concat_length, painted.seen]

/-- A parent stands in front of its child. -/
theorem parent_lt (painted : Painted start stop items seen parents) {index outer : Nat}
    (isParent : parents[index]? = some (some outer)) : outer < index := by
  have inside := (List.getElem?_eq_some_iff.mp isParent).1
  rw [painted.length] at inside
  rw [painted.parent index _ (getElem?_eq_getElem inside)] at isParent
  have bound := holders_lt (mem_of_head? (Option.some.inj isParent))
  rw [length_take] at bound
  omega

/-- The parent of an interval is the last one in front of it that holds its start. -/
theorem parent_eq_length (painted : Painted start stop items seen parents)
    {front middle rest : List Item} {outer inner : Item}
    (isCut : items = front ++ outer :: (middle ++ inner :: rest)) :
    parents[front.length + 1 + middle.length]? = some (some front.length) ↔
      Holds start stop outer (start inner) ∧
        ∀ later ∈ middle, ¬ Holds start stop later (start inner) := by
  have isAppend : items = (front ++ outer :: middle) ++ inner :: rest := by
    rw [isCut, append_assoc, cons_append]
  have isLength : front.length + 1 + middle.length = (front ++ outer :: middle).length := by
    rw [length_append, length_cons]
    omega
  rw [isLength, painted.parent _ inner (by rw [isAppend, getElem?_append_right (Nat.le_refl _),
    Nat.sub_self, getElem?_cons_zero]), isAppend, take_left, Option.some.injEq]
  exact head?_holders_eq_length

/-- An interval is held by the earlier intervals that hold one of its positions. -/
theorem holders_take_start (nested : Nested start stop items) {index position : Nat}
    {item : Item} (isItem : items[index]? = some item) (holds : Holds start stop item position) :
    holders start stop (items.take index) (start item) =
      holders start stop (items.take index) position := by
  unfold holders
  congr 1
  refine filter_congr fun earlier inside => ?_
  obtain ⟨before, belowLength⟩ : earlier < index ∧ earlier < items.length := by
    have bound := mem_range.mp inside
    rw [length_take] at bound
    omega
  have isEarlier := getElem?_eq_getElem belowLength
  rw [getElem?_take, if_pos before, isEarlier, Option.any_some, Option.any_some,
    decide_eq_decide]
  obtain ⟨isInside, rfl⟩ := List.getElem?_eq_some_iff.mp isItem
  have isNested := pairwise_iff_getElem.mp nested earlier index belowLength isInside before
  unfold Holds at holds ⊢
  omega

/-- Following the parents lists the intervals that hold a position. -/
theorem path_take (painted : Painted start stop items seen parents)
    (nested : Nested start stop items) (position count : Nat) (le : count ≤ items.length) :
    Path (parents[·]?) (holders start stop (items.take count) position).head?
      (holders start stop (items.take count) position) := by
  induction count with
  | zero => exact Path.root
  | succ count hyp =>
    have inside : count < items.length := le
    have isItem := getElem?_eq_getElem inside
    rw [take_succ_eq_append_getElem inside, holders_append_singleton,
      length_take_of_le (Nat.le_of_lt inside)]
    split
    · rename_i holds
      refine Path.step (painted.parent count _ isItem) ?_ ?_
      · rw [holders_take_start nested isItem holds]
        exact hyp (Nat.le_of_lt inside)
      · intro outer mem
        have bound := holders_lt mem
        rw [length_take] at bound
        omega
    · exact hyp (Nat.le_of_lt inside)

theorem path (painted : Painted start stop items seen parents) (nested : Nested start stop items)
    (position : Nat) : Path (parents[·]?) (seen position) (holders start stop items position) := by
  have whole := painted.path_take nested position items.length (Nat.le_refl _)
  rw [take_length] at whole
  rwa [painted.seen]

end Painted

end Ancestry
