/-
This file models the packed history of route arms,
`endpoint/kernel/decision_state/route_arm_history.rs`.

The rows of all active lanes stand in one array, lane after lane in the order of their
dense ordinals. The start of a lane is the sum of the lengths in front of it, and a row
that comes or goes shifts all rows behind it. So the array is the concatenation of one
list for each lane, and every operation changes one of the lists.
-/

import HibanaChoreography.Library.Machine
import HibanaChoreography.Lowering.EffList
import Mathlib.Algebra.BigOperators.Group.Finset.Piecewise
import Mathlib.Data.List.GetD

namespace Hibana

open Outcome Machines List

/-- A row: an arm of a route, or no route in an empty row. -/
structure RouteArmState where
  scope : Option ScopeId
  arm : UInt8
  deriving DecidableEq, Repr

def RouteArmState.empty : RouteArmState := ⟨none, 0⟩

def denseLaneAbsent : Nat := 65535

/-- What a history is set up with: the ordinals of the lanes and the number of rows. -/
structure LaneOrdinals where
  laneDenseByLane : List Nat
  activeLaneCount : Nat
  capacity : Nat

/-- The dense ordinal of an active lane. -/
def LaneOrdinals.laneDenseOrdinal (lanes : LaneOrdinals) (lane : Nat) : Option Nat :=
  lanes.laneDenseByLane[lane]?.filter fun dense =>
    dense ≠ denseLaneAbsent ∧ dense < lanes.activeLaneCount

/-- No two lanes have one ordinal. -/
def LaneOrdinals.Injective (lanes : LaneOrdinals) : Prop :=
  ∀ lane other dense, lanes.laneDenseOrdinal lane = some dense →
    lanes.laneDenseOrdinal other = some dense → lane = other

/-- The history. Its rows are the first `len` cells of the array; the other cells are free, and
nothing reads them. -/
structure RouteArmHistoryView extends LaneOrdinals where
  rows : List RouteArmState
  laneLengths : List Nat
  len : Nat

namespace RouteArmHistoryView

def init (lanes : LaneOrdinals) : Run RouteArmHistoryView :=
  if 65535 < lanes.capacity then .error .invariant
  else .ok ⟨lanes, [], .replicate lanes.activeLaneCount 0, 0⟩

/-- Read the dense ordinal of a lane, the start of its rows and their number. -/
def onLane {Reply : Type} (view : RouteArmHistoryView) (lane : Nat) (absent : Reply)
    (read : Nat → Nat → Nat → Reply) : Run Reply :=
  match view.laneDenseOrdinal lane with
  | none => .ok absent
  | some dense =>
    let start := (view.laneLengths.take dense).sum
    let len := view.laneLengths.getD dense 0
    if view.len < start + len then .error .invariant else .ok (read dense start len)

def laneLen (view : RouteArmHistoryView) (lane : Nat) : Run Nat :=
  view.onLane lane 0 fun _ _ len => len

def get (view : RouteArmHistoryView) (lane position : Nat) : Run RouteArmState :=
  view.onLane lane .empty fun _ start len =>
    if len ≤ position then .empty else view.rows.getD (start + position) .empty

/-- Change an active lane, if the number of its rows allows it. -/
def edit (view : RouteArmHistoryView) (lane : Nat) (allows : Nat → Bool)
    (change : Nat → Nat → Nat → RouteArmHistoryView) : Run (Bool × RouteArmHistoryView) :=
  view.onLane lane (false, view) fun dense start laneLen =>
    if allows laneLen then (true, change dense start laneLen) else (false, view)

def set (view : RouteArmHistoryView) (lane position : Nat) (row : RouteArmState) :
    Run (Bool × RouteArmHistoryView) :=
  view.edit lane (decide <| position < ·) fun _ start _ =>
    { view with rows := view.rows.set (start + position) row }

/-- Shift the rows behind the lane and write the new one. -/
def push (view : RouteArmHistoryView) (lane : Nat) (row : RouteArmState) :
    Run (Bool × RouteArmHistoryView) :=
  view.edit lane (fun laneLen => view.len < view.capacity ∧ laneLen ≠ 65535)
    fun dense start laneLen =>
      { view with
        rows := view.rows.take (start + laneLen) ++ row :: view.rows.drop (start + laneLen)
        laneLengths := view.laneLengths.set dense (laneLen + 1)
        len := view.len + 1 }

/-- Shift the rows behind the removed one. -/
def remove (view : RouteArmHistoryView) (lane position : Nat) : Run (Bool × RouteArmHistoryView) :=
  view.edit lane (decide <| position < ·) fun dense start laneLen =>
    { view with
      rows := view.rows.take (start + position) ++ view.rows.drop (start + position + 1)
      laneLengths := view.laneLengths.set dense (laneLen - 1)
      len := view.len - 1 }

inductive Op where
  | push (lane : Nat) (row : RouteArmState)
  | set (lane position : Nat) (row : RouteArmState)
  | remove (lane position : Nat)

def perform (view : RouteArmHistoryView) : Op → Run (Bool × RouteArmHistoryView)
  | .push lane row => view.push lane row
  | .set lane position row => view.set lane position row
  | .remove lane position => view.remove lane position

def machine : Machine RouteArmHistoryView Op Bool := ⟨fun _ _ => True, perform⟩

/-! ### Independent lists -/

/-- The number of rows in the lists of all lanes. -/
def total (lanes : LaneOrdinals) (lists : Nat → List RouteArmState) : Nat :=
  ∑ lane ∈ Finset.range lanes.laneDenseByLane.length, (lists lane).length

/-- When an operation on an active lane succeeds: a push needs room, the others a position. -/
def Op.succeeds (lanes : LaneOrdinals) (lists : Nat → List RouteArmState) : Op → Bool
  | push lane _ =>
    (lanes.laneDenseOrdinal lane).isSome && decide (total lanes lists < lanes.capacity)
  | set lane position _ | remove lane position =>
    (lanes.laneDenseOrdinal lane).isSome && decide (position < (lists lane).length)

/-- An operation that succeeds changes the list of its lane. -/
def Op.effect (lists : Nat → List RouteArmState) : Op → Nat → List RouteArmState
  | push lane row => Function.update lists lane (lists lane ++ [row])
  | set lane position row => Function.update lists lane ((lists lane).set position row)
  | remove lane position => Function.update lists lane ((lists lane).eraseIdx position)

/-- The lists behind a history. -/
def listsAfter (visits : List (Visit RouteArmHistoryView Op Bool)) : Nat → List RouteArmState :=
  effects (fun op reply lists => if reply then op.effect lists else lists) (fun _ => []) visits

/-! ### The partition -/

/-- The rows are the lists one after the other, in the order of the ordinals. -/
structure Packs (view : RouteArmHistoryView) (columns : List (List RouteArmState))
    (lists : Nat → List RouteArmState) : Prop where
  count : columns.length = view.activeLaneCount
  lengths : view.laneLengths = columns.map List.length
  rows : view.rows = columns.flatten
  len : view.len = view.rows.length ∧ view.len = total view.toLaneOrdinals lists
  small : view.capacity ≤ 65535 ∧ view.len ≤ view.capacity
  column : ∀ lane, lists lane = ((view.laneDenseOrdinal lane).bind (columns[·]?)).getD []

theorem flatten_set {columns : List (List RouteArmState)} {dense : Nat}
    (inside : dense < columns.length) (list : List RouteArmState) :
    (columns.set dense list).flatten =
      (columns.take dense).flatten ++ (list ++ (columns.drop (dense + 1)).flatten) := by
  rw [set_eq_take_append_cons_drop, if_pos inside, flatten_append, flatten_cons]

theorem total_update {lanes : LaneOrdinals} {lane : Nat}
    (inside : lane < lanes.laneDenseByLane.length) (lists : Nat → List RouteArmState)
    (list : List RouteArmState) :
    total lanes (Function.update lists lane list) + (lists lane).length =
      total lanes lists + list.length := by
  have mem := Finset.mem_range.mpr inside
  have lengths := fun other => Function.apply_update (fun _ => List.length) lists lane list other
  simp only [total, lengths]
  rw [Finset.sum_update_of_mem mem, Finset.sum_eq_add_sum_sdiff_singleton_of_mem mem]
  omega

variable {view : RouteArmHistoryView} {columns : List (List RouteArmState)}
  {lists : Nat → List RouteArmState} {lane dense : Nat} {Reply : Type}

/-- The rows of an active lane stand between those of the lanes in front of it and behind it. -/
theorem Packs.split (packs : view.Packs columns lists)
    (isDense : view.laneDenseOrdinal lane = some dense) :
    dense < columns.length ∧ columns.set dense (lists lane) = columns ∧
      view.rows = (columns.take dense).flatten ++
        (lists lane ++ (columns.drop (dense + 1)).flatten) ∧
      ∀ {Reply} (absent : Reply) read, view.onLane lane absent read =
        .ok (read dense (columns.take dense).flatten.length (lists lane).length) := by
  have inside : dense < columns.length :=
    packs.count ▸ (of_decide_eq_true (Option.filter_eq_some_iff.mp isDense).2).2
  have isColumn : lists lane = columns[dense] := by
    rw [packs.column, isDense, Option.bind_some, getElem?_eq_getElem inside, Option.getD_some]
  have isSame : columns.set dense (lists lane) = columns := by rw [isColumn, set_getElem_self]
  have isRows := packs.rows.trans (isSame ▸ flatten_set inside (lists lane))
  refine ⟨inside, isSame, isRows, fun absent read => ?_⟩
  have isLen := packs.len.1
  rw [isRows, length_append, length_append] at isLen
  simp only [onLane, isDense, packs.lengths, ← map_take, ← length_flatten]
  rw [List.getD, getElem?_map, getElem?_eq_getElem inside, Option.map_some,
    Option.getD_some, ← isColumn, if_neg (by omega)]

theorem Packs.of_inactive (packs : view.Packs columns lists)
    (isDense : view.laneDenseOrdinal lane = none) : lists lane = [] := by
  rw [packs.column, isDense]
  rfl

theorem Packs.length_le (packs : view.Packs columns lists) (lane : Nat) :
    (lists lane).length ≤ view.len := by
  cases isDense : view.laneDenseOrdinal lane with
  | none => simp [packs.of_inactive isDense]
  | some dense =>
    obtain ⟨-, -, isRows, -⟩ := packs.split isDense
    rw [packs.len.1, isRows, length_append, length_append]
    omega

/-- The history reads as the lists. -/
structure Shows (view : RouteArmHistoryView) (lists : Nat → List RouteArmState) : Prop where
  laneLen : ∀ lane, view.laneLen lane = .ok (lists lane).length
  get : ∀ lane position, view.get lane position = .ok ((lists lane).getD position .empty)
  len : view.len = total view.toLaneOrdinals lists

theorem Packs.shows (packs : view.Packs columns lists) : view.Shows lists := by
  refine ⟨fun lane => ?_, fun lane position => ?_, packs.len.2⟩
  all_goals cases isDense : view.laneDenseOrdinal lane
  · rw [laneLen, onLane, isDense, packs.of_inactive isDense]
    rfl
  · rw [laneLen, (packs.split isDense).2.2.2]
  · rw [get, onLane, isDense, packs.of_inactive isDense]
    rfl
  · obtain ⟨-, -, isRows, isRead⟩ := packs.split isDense
    rw [get, isRead]
    split
    · rw [getD_eq_default _ _ ‹_›]
    · rw [isRows, getD_append_right _ _ _ _ (Nat.le_add_right ..), Nat.add_sub_cancel_left,
        getD_append _ _ _ _ (by omega)]

/-- The history holds the lists of these lanes. -/
def Represents (lanes : LaneOrdinals) (view : RouteArmHistoryView)
    (lists : Nat → List RouteArmState) : Prop :=
  view.toLaneOrdinals = lanes ∧ ∃ columns, view.Packs columns lists

/-- A run replies, and leaves the lists as they are or as given when it succeeds. -/
def Follows (view : RouteArmHistoryView) (lists : Nat → List RouteArmState)
    (run : Run (Bool × RouteArmHistoryView)) (reply : Bool) (after : Nat → List RouteArmState) :
    Prop :=
  ∃ next, run = .ok (reply, next) ∧
    Represents view.toLaneOrdinals next (if reply then after else lists)

/-- The list of one lane is another one, and all else is as before. -/
structure Edited (view next : RouteArmHistoryView) (dense : Nat)
    (front old list back : List RouteArmState) : Prop where
  lanes : next.toLaneOrdinals = view.toLaneOrdinals
  rows : next.rows = front ++ (list ++ back)
  lengths : next.laneLengths = view.laneLengths.set dense list.length
  len : next.len + old.length = view.len + list.length
  fits : next.len ≤ view.capacity

/-- An edit of the rows is one of the list of its lane, and of no other list. -/
theorem Packs.follows_edit (packs : view.Packs columns lists) (injective : view.Injective)
    {allows : Nat → Bool} {change : Nat → Nat → Nat → RouteArmHistoryView}
    {list : List RouteArmState}
    (edits : ∀ dense front back, allows (lists lane).length = true →
      view.rows = front ++ (lists lane ++ back) →
      view.laneLengths.set dense (lists lane).length = view.laneLengths →
      Edited view (change dense front.length (lists lane).length) dense front (lists lane) list
        back) :
    view.Follows lists (view.edit lane allows change)
      ((view.laneDenseOrdinal lane).isSome && allows (lists lane).length)
      (Function.update lists lane list) := by
  cases isDense : view.laneDenseOrdinal lane with
  | none => exact ⟨view, by rw [edit, onLane, isDense]; rfl, rfl, columns, packs⟩
  | some dense =>
    obtain ⟨isColumn, isSame, isRows, isRead⟩ := packs.split isDense
    rw [edit, isRead]
    cases isAllowed : allows (lists lane).length with
    | false => exact ⟨view, rfl, rfl, columns, packs⟩
    | true =>
      have edited := edits dense _ _ isAllowed isRows
        (by rw [packs.lengths, ← map_set, isSame])
      obtain ⟨isLen, isTotal⟩ := packs.len
      have isUpdated := total_update (List.getElem?_eq_some_iff.mp
        (Option.filter_eq_some_iff.mp isDense).1).1 lists list
      have isNext := edited.len
      have lengths := congrArg List.length edited.rows
      rw [isRows] at isLen
      simp only [length_append] at isLen lengths
      refine ⟨_, rfl, edited.lanes, columns.set dense list, ?_, ?_, ?_, ⟨by omega, ?_⟩, ?_,
        fun other => ?_⟩
      · rw [length_set, packs.count, edited.lanes]
      · rw [edited.lengths, packs.lengths, map_set]
      · rw [edited.rows, flatten_set isColumn]
      · rw [edited.lanes]
        change _ = total view.toLaneOrdinals (Function.update lists lane list)
        omega
      · rw [edited.lanes]
        exact ⟨packs.small.1, edited.fits⟩
      · rw [edited.lanes]
        by_cases same : other = lane
        · subst same
          rw [isDense, Option.bind_some, getElem?_set_self isColumn]
          exact Function.update_self ..
        · refine (Function.update_of_ne same ..).trans ?_
          rw [packs.column]
          cases isOther : view.laneDenseOrdinal other with
          | none => rfl
          | some otherDense =>
            rw [Option.bind_some, Option.bind_some, getElem?_set_ne]
            rintro rfl
            exact same (injective _ _ _ isOther isDense)

/-- An operation does to the history what it does to the lists. -/
theorem Packs.follows (packs : view.Packs columns lists) (injective : view.Injective) (op : Op) :
    view.Follows lists (view.perform op) (op.succeeds view.toLaneOrdinals lists)
      (op.effect lists) := by
  obtain ⟨isLen, isTotal⟩ := packs.len
  obtain ⟨small, fits⟩ := packs.small
  cases op with
  | push lane row =>
    have short := packs.length_le lane
    have isReply : decide (total view.toLaneOrdinals lists < view.capacity) =
        decide (view.len < view.capacity ∧ (lists lane).length ≠ 65535) :=
      decide_eq_decide.mpr (by omega)
    rw [perform, push, Op.succeeds, Op.effect, isReply]
    refine packs.follows_edit injective fun dense front back allowed isRows _ =>
      ⟨rfl, ?_, by simp, by simp; omega, (of_decide_eq_true allowed).1⟩
    simp [isRows, take_length_add_append, drop_length_add_append]
  | set lane position row =>
    rw [perform, set, Op.succeeds, Op.effect]
    refine packs.follows_edit injective fun dense front back allowed isRows isSame =>
      ⟨rfl, ?_, by rw [length_set, isSame], by rw [length_set], fits⟩
    rw [isRows, set_append_right _ _ (Nat.le_add_right _ _), Nat.add_sub_cancel_left,
      set_append_left _ _ (of_decide_eq_true allowed)]
  | remove lane position =>
    rw [perform, remove, Op.succeeds, Op.effect]
    refine packs.follows_edit injective fun dense front back allowed isRows _ => ?_
    have inside := of_decide_eq_true allowed
    have short := packs.length_le lane
    have isLength := length_eraseIdx_of_lt inside
    refine ⟨rfl, ?_, by rw [isLength], by dsimp only; omega, (Nat.sub_le ..).trans fits⟩
    rw [isRows, Nat.add_assoc, take_length_add_append, drop_length_add_append,
      take_append_of_le_length (Nat.le_of_lt inside), drop_append_of_le_length inside,
      eraseIdx_eq_take_drop_succ, append_assoc, append_assoc]

/-- Along every history from `init`, the reads are those of independent lists, one for each active
lane, and the next operation returns and succeeds as it does on the lists. -/
theorem history_keeps_lists (lanes : LaneOrdinals) (injective : lanes.Injective)
    (start view : RouteArmHistoryView) (isInit : init lanes = .ok start)
    (visits : List (Visit RouteArmHistoryView Op Bool))
    (history : History machine start visits view) :
    view.Shows (listsAfter visits) ∧ ∀ op, ∃ next,
      view.perform op = .ok (op.succeeds lanes (listsAfter visits), next) := by
  have isHeld : Represents lanes view (listsAfter visits) := by
    have atStart : Represents lanes start fun _ => [] := by
      rw [init] at isInit
      split at isInit
      · contradiction
      · cases isInit
        refine ⟨rfl, .replicate lanes.activeLaneCount [], by simp, by simp, by simp,
          ⟨rfl, by simp [total]⟩, ⟨by simp; omega, Nat.zero_le _⟩, fun lane => ?_⟩
        cases lanes.laneDenseOrdinal lane with
        | none => rfl
        | some dense =>
          rw [Option.bind_some, getElem?_replicate]
          split <;> rfl
    refine history.refines atStart ?_
    rintro view lists op reply next ⟨rfl, columns, packs⟩ - isOk
    obtain ⟨other, isOther, isHeld⟩ := packs.follows injective op
    cases isOk.symm.trans isOther
    exact isHeld
  obtain ⟨rfl, columns, packs⟩ := isHeld
  exact ⟨packs.shows, fun op => (packs.follows injective op).imp fun _ => And.left⟩

/-- Lanes 0 and 2 are active. -/
def twoLanes : LaneOrdinals := ⟨[0, denseLaneAbsent, 1], 2, 4⟩

/-- A push on lane 0 shifts the rows of lane 2; one of these is set,
and the row of lane 0 is removed again. -/
theorem history_keeps_lists_twoLanes :
    ∃ start visits view, init twoLanes = .ok start ∧ History machine start visits view ∧
      visits.map Visit.op = [.push 2 ⟨none, 1⟩, .push 2 ⟨none, 2⟩, .push 0 ⟨none, 3⟩,
        .set 2 1 ⟨none, 4⟩, .remove 0 0] ∧
      listsAfter visits 0 = [] ∧ listsAfter visits 2 = [⟨none, 1⟩, ⟨none, 4⟩] ∧
      view.Shows (listsAfter visits) := by
  have injective : twoLanes.Injective := by
    intro lane other dense isLane isOther
    have small : ∀ {lane}, twoLanes.laneDenseOrdinal lane = some dense → lane < 3 := fun isLane =>
      (List.getElem?_eq_some_iff.mp (Option.filter_eq_some_iff.mp isLane).1).1
    have distinct : ∀ lane < 3, ∀ other < 3, (twoLanes.laneDenseOrdinal lane).isSome →
        twoLanes.laneDenseOrdinal lane = twoLanes.laneDenseOrdinal other → lane = other := by decide
    exact distinct _ (small isLane) _ (small isOther) (Option.isSome_of_eq_some isLane)
      (isLane.trans isOther.symm)
  have run : (do
      let start ← init twoLanes
      let (visits, _) ← play perform (fun _ _ => true) start [.push 2 ⟨none, 1⟩, .push 2 ⟨none, 2⟩,
        .push 0 ⟨none, 3⟩, .set 2 1 ⟨none, 4⟩, .remove 0 0]
      return (listsAfter visits 0, listsAfter visits 2)) =
        .ok ([], [⟨none, 1⟩, ⟨none, 4⟩]) := by
    decide +kernel
  obtain ⟨start, isInit, run⟩ := Run.of_bind run
  obtain ⟨⟨visits, view⟩, isPlayed, run⟩ := Run.of_bind run
  obtain ⟨isFirst, isSecond⟩ := Prod.mk.inj (Except.ok.inj run)
  obtain ⟨history, isOps⟩ := History.of_play machine (fun _ _ _ => trivial) isPlayed
  exact ⟨start, visits, view, isInit, history, isOps, isFirst, isSecond,
    (history_keeps_lists twoLanes injective start view isInit visits history).1⟩

end RouteArmHistoryView

end Hibana
