/-
This file models the checked arithmetic of resident layouts,
`runtime_core/layout.rs`.

Sizes and addresses are machine words of the target: an operation that leaves
their domain is an invariant failure or, in its checked form, has no result.
-/

import HibanaChoreography.Library.Run
import Mathlib.Data.BitVec

namespace Hibana

open Outcome

namespace Layout

variable (usizeMax : Nat)

def checkedAdd (lhs rhs : Nat) : Option Nat :=
  if lhs + rhs ≤ usizeMax then some (lhs + rhs) else none

def add (lhs rhs : Nat) : Run Nat :=
  match checkedAdd usizeMax lhs rhs with
  | some value => .ok value
  | none => .error .invariant

def sub (lhs rhs : Nat) : Run Nat := if rhs ≤ lhs then .ok (lhs - rhs) else .error .invariant

def checkedMul (lhs rhs : Nat) : Option Nat :=
  if lhs * rhs ≤ usizeMax then some (lhs * rhs) else none

def mul (lhs rhs : Nat) : Run Nat :=
  match checkedMul usizeMax lhs rhs with
  | some value => .ok value
  | none => .error .invariant

def isPowerOfTwo (value : Nat) : Bool := value ≠ 0 ∧ 2 ^ value.log2 = value

/-- The last multiple of an alignment that is not behind a value: the value without its low bits. -/
def alignDown (value align : Nat) : Nat := value - value % align

def checkedAlignUp (value align : Nat) : Run (Option Nat) :=
  if ¬ isPowerOfTwo align then .error .invariant
  else .ok ((checkedAdd usizeMax value (align - 1)).map (alignDown · align))

def alignUp (value align : Nat) : Run Nat := do
  match ← checkedAlignUp usizeMax value align with
  | some value => .ok value
  | none => .error .invariant

/-- The offset of the first aligned address behind an offset. -/
def checkedAlignOffset (base offset align : Nat) : Run (Option Nat) :=
  match checkedAdd usizeMax base offset with
  | none => .ok none
  | some absolute => do
    match ← checkedAlignUp usizeMax absolute align with
    | none => .ok none
    | some aligned => .ok (if base ≤ aligned then some (aligned - base) else none)

/-! ### Results inside the domain -/

variable {usizeMax} {lhs rhs value align : Nat}

theorem checkedAdd_of_le (fits : lhs + rhs ≤ usizeMax) :
    checkedAdd usizeMax lhs rhs = some (lhs + rhs) := if_pos fits

theorem add_ok (fits : lhs + rhs ≤ usizeMax) : add usizeMax lhs rhs = .ok (lhs + rhs) := by
  rw [add, checkedAdd_of_le fits]

theorem sub_ok (ordered : rhs ≤ lhs) : sub lhs rhs = .ok (lhs - rhs) := if_pos ordered

theorem mul_ok (fits : lhs * rhs ≤ usizeMax) : mul usizeMax lhs rhs = .ok (lhs * rhs) := by
  rw [mul, checkedMul, if_pos fits]

theorem checkedAlignUp_of_le (isPower : isPowerOfTwo align = true)
    (fits : value + (align - 1) ≤ usizeMax) :
    checkedAlignUp usizeMax value align = .ok (some (alignDown (value + (align - 1)) align)) := by
  rw [checkedAlignUp, if_neg (not_not_intro isPower), checkedAdd_of_le fits, Option.map_some]

theorem alignUp_ok (isPower : isPowerOfTwo align = true) (fits : value + (align - 1) ≤ usizeMax) :
    alignUp usizeMax value align = .ok (alignDown (value + (align - 1)) align) := by
  rw [alignUp, checkedAlignUp_of_le isPower fits, Run.bind_ok]

end Layout

end Hibana
