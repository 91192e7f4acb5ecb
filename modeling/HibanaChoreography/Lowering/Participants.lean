/-
This file models the interval unions of participants,
`global/const_dsl/receive_lane_causality/participants.rs`.

The participants of the events are the leaves of a tree of unions. A range of events is
asked for all its participants, or whether they are in a given set; both queries walk up
from the ends of the range.
-/

import HibanaChoreography.Library.SegmentTree
import HibanaChoreography.Lowering.LaneMatching

namespace Hibana

open Outcome SegmentTree

/-- The unions of participants. Node zero is unused. -/
structure Participants where
  nodes : Nat → Finset UInt8
  len : Nat

namespace Participants

def new (eff : EffList) (actors : Option ActorImage) : Run Participants := do
  let leaves ← (List.range eff.len).mapM (includeEndpoints eff actors · ∅)
  let nodes := List.replicate eff.len ∅ ++ leaves
  return ⟨buildParents (nodes.getD · ∅) eff.len, eff.len⟩

/-- The union of the nodes that the walk from both ends meets. -/
def members (index : Participants) (start stop : Nat) : Run (Finset UInt8) :=
  if stop < start ∨ index.len < stop then .error .invariant
  else
    .ok ((visits (index.len + start) (index.len + stop)).foldl
      (fun result node => result ∪ index.nodes node) ∅)

/-- The same walk, up to the first node with a role that is not among the facts. -/
def covered (index : Participants) (start stop : Nat) (facts : Finset UInt8) : Run Bool :=
  if stop < start ∨ index.len < stop then .error .invariant
  else
    .ok ((visits (index.len + start) (index.len + stop)).all
      fun node => decide (index.nodes node ⊆ facts))

theorem mem_foldl_union (nodes : Nat → Finset UInt8) (role : UInt8) (items : List Nat)
    (base : Finset UInt8) :
    role ∈ items.foldl (fun result node => result ∪ nodes node) base ↔
      role ∈ base ∨ ∃ node ∈ items, role ∈ nodes node := by
  induction items generalizing base with
  | nil => simp
  | cons item items hyp => simp [hyp, or_assoc]

/-- A role is in a node that the walk meets exactly when it takes part in the range. -/
theorem exists_mem_nodes {participants : Nat → Finset UInt8} {len start stop : Nat}
    {nodes : List (Finset UInt8)}
    (isNodes : nodes = .replicate len ∅ ++ (List.range len).map participants)
    (inside : stop ≤ len) (role : UInt8) :
    (∃ node ∈ visits (len + start) (len + stop), role ∈ buildParents (nodes.getD · ∅) len node) ↔
      ∃ event, start ≤ event ∧ event < stop ∧ role ∈ participants event := by
  have isLeaf : ∀ event < len,
      buildParents (nodes.getD · ∅) len (len + event) = participants event := by
    intro event isBefore
    rw [buildParents_of_le _ (Nat.le_add_right ..), isNodes]
    simp [List.getD, isBefore]
  have isParent : ∀ node, 1 ≤ node → node < len → (role ∈ buildParents (nodes.getD · ∅) len node ↔
        role ∈ buildParents (nodes.getD · ∅) len (node * 2) ∨
          role ∈ buildParents (nodes.getD · ∅) len (node * 2 + 1)) := by
    intro node isPositive isBefore
    rw [buildParents_of_lt _ isPositive isBefore]
    exact Finset.mem_union
  rw [exists_mem_visits isParent (by omega) (by omega)]
  constructor
  · rintro ⟨node, low, high, mem⟩
    obtain ⟨event, rfl⟩ := Nat.exists_eq_add_of_le (show len ≤ node by omega)
    exact ⟨event, by omega, by omega, isLeaf event (by omega) ▸ mem⟩
  · rintro ⟨event, low, high, mem⟩
    exact ⟨len + event, by omega, by omega, (isLeaf event (by omega)).symm ▸ mem⟩

/-- A role takes part in an event of a range. -/
def TakesPart (eff : EffList) (actors : Option ActorImage) (start stop : Nat)
    (role : UInt8) : Prop :=
  ∃ event, start ≤ event ∧ event < stop ∧
    ∃ roles, EventParticipants eff event roles actors ∧ role ∈ roles

/-- The two queries are exact for every range of an event list, of any length. An actor image, where
there is one, has an answer for every event of the list. -/
theorem queries_exact (eff : EffList) (actors : Option ActorImage)
    (answers : ∀ image ∈ actors, ∀ event < eff.len, ∃ roles,
      image.possibleActors event = .ok roles) :
    ∃ index, new eff actors = .ok index ∧ ∀ start stop, start ≤ stop → stop ≤ eff.len →
      (∃ roles, index.members start stop = .ok roles ∧
        ∀ role, role ∈ roles ↔ TakesPart eff actors start stop role) ∧
      ∀ facts, ∃ answer, index.covered start stop facts = .ok answer ∧
        (answer = true ↔ ∀ role, TakesPart eff actors start stop role → role ∈ facts) := by
  have isOk : ∀ event, ∃ roles, event < eff.len →
      includeEndpoints eff actors event ∅ = .ok roles := by
    intro event
    by_cases inside : event < eff.len
    · cases actors with
      | none => exact ⟨_, fun _ => by
          rw [includeEndpoints, EffList.atomAt, List.getElem?_eq_getElem inside]; rfl⟩
      | some image => exact (answers image rfl event inside).imp fun _ isOk _ => isOk
    · exact ⟨∅, fun isInside => absurd isInside inside⟩
  choose participants isParticipants using isOk
  have isNew : new eff actors = .ok ⟨buildParents ((List.replicate eff.len ∅ ++
      (List.range eff.len).map participants).getD · ∅) eff.len, eff.len⟩ := by
    rw [new, Run.mapM_eq_map fun event mem => isParticipants event (List.mem_range.mp mem)]
    rfl
  refine ⟨_, isNew, fun start stop order inside => ?_⟩
  have isTaken : ∀ role, (∃ event, start ≤ event ∧ event < stop ∧ role ∈ participants event) ↔
      TakesPart eff actors start stop role := fun role => exists_congr fun event =>
    and_congr_right fun _ => and_congr_right fun high => by
      simp [← includeEndpoints_eq_ok_iff, isParticipants event (high.trans_le inside)]
  simp only [← isTaken, members, covered, show ¬ (stop < start ∨ eff.len < stop) by omega, if_false]
  refine ⟨⟨_, rfl, fun role => ?_⟩, fun facts => ⟨_, rfl, ?_⟩⟩
  · rw [mem_foldl_union, ← exists_mem_nodes rfl inside role]
    simp
  · simp only [← exists_mem_nodes rfl inside, List.all_eq_true, decide_eq_true_eq]
    constructor
    · rintro all role ⟨node, met, mem⟩
      exact all node met mem
    · exact fun all node met role mem => all role ⟨node, met, mem⟩

/-- Three messages between four roles. -/
def threeMessages : EffList :=
  ⟨[⟨0, 1, 0, .wire 0, 0⟩, ⟨1, 2, 1, .wire 0, 0⟩, ⟨2, 3, 2, .wire 0, 0⟩], [], [], 3, 3, 0, 0⟩

/-- The last two messages have the roles 1, 2 and 3. -/
theorem queries_exact_threeMessages :
    ∃ index, new threeMessages none = .ok index ∧ index.members 1 3 = .ok {1, 2, 3} ∧
      index.covered 1 3 {1, 2, 3} = .ok true ∧ index.covered 1 3 {1, 2} = .ok false := by
  obtain ⟨index, isNew, exact⟩ := queries_exact threeMessages none nofun
  obtain ⟨⟨roles, isRoles, isExact⟩, isCovered⟩ := exact 1 3 (by decide) (by decide)
  have taken : ∀ role, TakesPart threeMessages none 1 3 role ↔
      role ∈ ({1, 2, 3} : Finset UInt8) := by
    intro role
    simp only [Finset.mem_insert, Finset.mem_singleton]
    constructor
    · rintro ⟨event, low, high, roles, ⟨atom, isAtom, rfl⟩, mem⟩
      obtain rfl | rfl : event = 1 ∨ event = 2 := by omega
      · cases isAtom
        exact (Finset.mem_insert.mp mem).imp_right fun mem => .inl (Finset.mem_singleton.mp mem)
      · cases isAtom
        exact .inr ((Finset.mem_insert.mp mem).imp_right Finset.mem_singleton.mp)
    · rintro (rfl | rfl | rfl)
      · exact ⟨1, by decide, by decide, _, ⟨_, rfl, rfl⟩, by decide⟩
      · exact ⟨1, by decide, by decide, _, ⟨_, rfl, rfl⟩, by decide⟩
      · exact ⟨2, by decide, by decide, _, ⟨_, rfl, rfl⟩, by decide⟩
  obtain rfl : roles = {1, 2, 3} := Finset.ext fun role => (isExact role).trans (taken role)
  obtain ⟨all, isAll, allIff⟩ := isCovered {1, 2, 3}
  obtain ⟨two, isTwo, twoIff⟩ := isCovered {1, 2}
  obtain rfl : all = true := allIff.mpr fun role => (taken role).mp
  obtain rfl : two = false := Bool.eq_false_iff.mpr fun isTrue =>
    absurd (twoIff.mp isTrue 3 ((taken 3).mpr (by decide))) (by decide)
  exact ⟨index, isNew, isRoles, isAll, isTwo⟩

end Participants

end Hibana
