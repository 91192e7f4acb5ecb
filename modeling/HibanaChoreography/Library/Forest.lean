/-
This file is a small theory of parent-pointer forests.

A forest is a partial parent function on the indices below a size; a root is its
own parent. Following parents is a loop without a syntactic bound, so it is
modelled with fuel. A rank that grows along every parent step bounds the loop:
it returns whenever the fuel exceeds the size, and whatever every parent step
keeps is constant on the class of a root.
-/

import HibanaChoreography.Library.Run
import Mathlib.Data.Finset.Card
import Mathlib.Data.Finset.Range

namespace Forest

open Outcome

/-- Follow parents up to a root. An index outside the forest is out of bounds. -/
def root (parent : Nat → Option Nat) : Nat → Nat → Run Nat
  | 0, _ => .error .fuel
  | fuel + 1, index =>
    match parent index with
    | none => .error (.panic "index out of bounds")
    | some next => if next = index then .ok index else root parent fuel next

/-- A ranked forest: parents stay inside, and rank grows along every step to another index. -/
structure Ranked (parent : Nat → Option Nat) (rank : Nat → Nat) (size : Nat) : Prop where
  step : ∀ index < size, ∃ next, parent index = some next ∧ next < size ∧
    (next = index ∨ rank index < rank next)

section Ranked

variable {parent : Nat → Option Nat} {rank : Nat → Nat} {size : Nat}

/-- The indices of higher rank, which bound the steps still to be made. -/
def above (rank : Nat → Nat) (size index : Nat) : Finset Nat :=
  (Finset.range size).filter fun other => rank index < rank other

theorem above_card_lt {index next : Nat} (inside : next < size) (higher : rank index < rank next) :
    (above rank size next).card < (above rank size index).card := by
  refine Finset.card_lt_card (Finset.ssubset_iff_subset_ne.mpr ⟨?_, ?_⟩)
  · intro other mem
    simp only [above, Finset.mem_filter] at mem ⊢
    exact ⟨mem.1, Nat.lt_trans higher mem.2⟩
  · intro same
    have inAbove : next ∈ above rank size index :=
      Finset.mem_filter.mpr ⟨Finset.mem_range.mpr inside, higher⟩
    rw [← same] at inAbove
    exact Nat.lt_irrefl _ (Finset.mem_filter.mp inAbove).2

theorem above_card_le (rank : Nat → Nat) (size index : Nat) :
    (above rank size index).card ≤ size := by
  calc (above rank size index).card
      ≤ (Finset.range size).card := Finset.card_filter_le _ _
    _ = size := Finset.card_range size

/-- Following parents in a ranked forest ends at a root inside it. -/
theorem Ranked.root_ok (ranked : Ranked parent rank size) (fuel index : Nat)
    (inside : index < size) (enough : (above rank size index).card < fuel) :
    ∃ top, root parent fuel index = .ok top ∧ top < size ∧ parent top = some top := by
  induction fuel generalizing index with
  | zero => omega
  | succ fuel hyp =>
    obtain ⟨next, isNext, nextInside, stop | higher⟩ := ranked.step index inside
    · subst stop
      exact ⟨next, by simp [root, isNext], inside, isNext⟩
    · have ne : next ≠ index := by
        rintro rfl
        exact Nat.lt_irrefl _ higher
      have fewer := above_card_lt nextInside higher
      obtain ⟨top, found, topInside, isRoot⟩ :=
        hyp next nextInside (by omega)
      exact ⟨top, by simp [root, isNext, ne, found], topInside, isRoot⟩

end Ranked

section Chase

variable {parent : Nat → Option Nat} {fuel index top : Nat}

/-- A chase that returned stops at a root. -/
theorem parent_of_root_eq_ok (found : root parent fuel index = .ok top) :
    parent top = some top := by
  induction fuel generalizing index with
  | zero => simp [root] at found
  | succ fuel hyp =>
    simp only [root] at found
    split at found
    · cases found
    · rename_i next isNext
      split at found
      · rename_i same
        cases found
        rw [isNext, same]
      · exact hyp found

/-- What every parent step keeps holds at the end of a chase. -/
theorem property_of_root_eq_ok {property : Nat → Prop}
    (kept : ∀ index next, parent index = some next → property index → property next)
    (found : root parent fuel index = .ok top) (holds : property index) : property top := by
  induction fuel generalizing index with
  | zero => simp [root] at found
  | succ fuel hyp =>
    simp only [root] at found
    split at found
    · cases found
    · rename_i next isNext
      split at found
      · cases found
        exact holds
      · exact hyp found (kept index next isNext holds)

/-- A label that every parent step keeps is constant along a chase. -/
theorem constant_of_root_eq_ok {Label : Type} {label : Nat → Label}
    (kept : ∀ index next, parent index = some next → label index = label next)
    (found : root parent fuel index = .ok top) : label index = label top := by
  have step : ∀ reached next, parent reached = some next → label index = label reached →
      label index = label next :=
    fun reached next isNext same => same.trans (kept reached next isNext)
  exact property_of_root_eq_ok step found rfl

/-- A root is its own root. -/
theorem root_of_parent_self (isRoot : parent index = some index) (fuel : Nat) :
    root parent (fuel + 1) index = .ok index := by
  simp [root, isRoot]

/-- One chase step keeps the root. -/
theorem root_of_parent {next : Nat} (isNext : parent index = some next) (ne : next ≠ index)
    (fuel : Nat) : root parent (fuel + 1) index = root parent fuel next := by
  simp [root, isNext, ne]

/-- More fuel finds the same root. -/
theorem root_mono {more : Nat} (found : root parent fuel index = .ok top) (enough : fuel ≤ more) :
    root parent more index = .ok top := by
  induction fuel generalizing more index with
  | zero => simp [root] at found
  | succ fuel hyp =>
    obtain ⟨more, rfl⟩ : ∃ rest, more = rest + 1 := ⟨more - 1, by omega⟩
    simp only [root] at found ⊢
    split at found
    · cases found
    · split at found
      · rename_i same
        simpa [same] using found
      · rename_i ne
        rw [if_neg ne]
        exact hyp found (by omega)

end Chase

end Forest
