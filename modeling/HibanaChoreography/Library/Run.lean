/-
This file is the result type of a modelled function that may not return.

A compile-time function of the modelled program ends in one of four ways: it
returns, it panics with a message, it reaches an internal invariant failure, or
it runs for ever. A model whose recursion is not structural carries fuel, and
running out of it stands for the last of the four. A theorem that a run is
`.ok value` therefore rules out the other three at once. A checked run may in
addition refuse its input with an error of its own.
-/

import Mathlib.Tactic.Common

namespace Outcome

/-- The ways in which a run can fail to return. -/
inductive Fault where
  | panic (message : String)
  | invariant
  | fuel
  deriving DecidableEq, Repr

/-- A run returns a value or stops with a fault. -/
abbrev Run (Value : Type) := Except Fault Value

/-- The ways in which a checked run can end without a value. -/
inductive Failure (Error : Type) where
  | fault (fault : Fault)
  | refused (error : Error)
  deriving DecidableEq, Repr

/-- A checked run returns a value, refuses its input, or stops with a fault. -/
abbrev Checked (Error Value : Type) := Except (Failure Error) Value

/-- A run is a checked run that never refuses. -/
def Run.checked {Error Value : Type} (run : Run Value) : Checked Error Value :=
  run.mapError .fault

/-- Refuse the input of a checked run. -/
def refuse {Error Value : Type} (error : Error) : Checked Error Value :=
  .error (.refused error)

namespace Run

variable {Stop Value Result : Type}

/-- A bound run returns exactly when its first part returns and the continuation returns. -/
theorem bind_eq_ok_iff (first : Except Stop Value) (next : Value → Except Stop Result)
    (result : Result) :
    (first >>= next) = .ok result ↔ ∃ value, first = .ok value ∧ next value = .ok result := by
  cases first with
  | error stop =>
    simp only [bind, Except.bind, reduceCtorEq, false_and, exists_false]
  | ok value =>
    simp only [bind, Except.bind, Except.ok.injEq, exists_eq_left']

theorem of_bind {first : Except Stop Value} {next : Value → Except Stop Result} {result : Result}
    (isOk : (first >>= next) = .ok result) : ∃ value, first = .ok value ∧ next value = .ok result :=
  (bind_eq_ok_iff _ _ _).mp isOk

@[simp] theorem bind_ok (value : Value) (next : Value → Except Stop Result) :
    ((Except.ok value : Except Stop Value) >>= next) = next value := rfl

@[simp] theorem bind_error (stop : Stop) (next : Value → Except Stop Result) :
    ((Except.error stop : Except Stop Value) >>= next) = .error stop := rfl

@[simp] theorem bind_ok_right (run : Except Stop Value) :
    (run >>= fun value => Except.ok value) = run := by
  cases run <;> rfl

@[simp] theorem pure_eq_ok (value : Value) : (pure value : Except Stop Value) = .ok value := rfl

theorem map_ok (apply : Value → Result) (value : Value) :
    (Except.ok value : Except Stop Value).map apply = .ok (apply value) := rfl

@[simp] theorem checked_ok {Error : Type} (value : Value) :
    (Run.checked (.ok value) : Checked Error Value) = .ok value := rfl

/-! ### Conditions and loops

The second condition runs only when the first leaves the result open, and a loop
stops at the first item that settles it. -/

/-- Both conditions hold. -/
def both (first second : Except Stop Bool) : Except Stop Bool := do
  if ← first then second else return false

/-- One of the conditions holds. -/
def either (first second : Except Stop Bool) : Except Stop Bool := do
  if ← first then return true else second

variable {first second : Except Stop Bool} {condition : Value → Except Stop Bool}
  {items : List Value} {search : Value → Except Stop (Option Result)}

theorem either_ok_ok (first second : Bool) :
    either (.ok first) (.ok second) = (.ok (first || second) : Except Stop Bool) := by
  cases first <;> rfl

/-- The first of two searches that finds something. -/
def firstSome (first second : Except Stop (Option Value)) : Except Stop (Option Value) := do
  match ← first with
  | some found => return some found
  | none => second

theorem allM_eq_true_iff (condition : Value → Except Stop Bool) (items : List Value) :
    items.allM condition = .ok true ↔ ∀ item ∈ items, condition item = .ok true := by
  induction items with
  | nil => simp [List.allM]
  | cons item items hyp =>
    rw [List.forall_mem_cons, ← hyp, List.allM]
    rcases condition item with stop | _ | _ <;> simp

theorem allM_ok (isOk : ∀ item ∈ items, ∃ result, condition item = .ok result) :
    ∃ result, items.allM condition = .ok result := by
  induction items with
  | nil => exact ⟨true, rfl⟩
  | cons item items hyp =>
    obtain ⟨headOk, tailOk⟩ := List.forall_mem_cons.mp isOk
    obtain ⟨_ | _, isResult⟩ := headOk
    · exact ⟨false, by simp [List.allM, isResult]⟩
    · obtain ⟨result, isRest⟩ := hyp tailOk
      exact ⟨result, by simp [List.allM, isResult, isRest]⟩

theorem anyM_eq_ok (answer : Value → Bool)
    (isAnswer : ∀ item ∈ items, condition item = .ok (answer item)) :
    items.anyM condition = .ok (items.any answer) := by
  induction items with
  | nil => rfl
  | cons item items hyp =>
    rw [List.forall_mem_cons] at isAnswer
    rw [List.anyM, isAnswer.1, bind_ok, List.any_cons]
    cases answer item with
    | true => rfl
    | false => exact hyp isAnswer.2

theorem anyM_eq_false (noneHolds : ∀ item ∈ items, condition item = .ok false) :
    items.anyM condition = .ok false := by
  simp [anyM_eq_ok (fun _ => false) noneHolds]

theorem mapM_eq_map {apply : Value → Except Stop Result} {answer : Value → Result}
    (isOk : ∀ item ∈ items, apply item = .ok (answer item)) :
    items.mapM apply = .ok (items.map answer) := by
  induction items with
  | nil => rfl
  | cons item items hyp =>
    rw [List.forall_mem_cons] at isOk
    rw [List.mapM_cons, isOk.1, bind_ok, hyp isOk.2]
    rfl

theorem findSomeM_eq_none_iff (search : Value → Except Stop (Option Result)) (items : List Value) :
    items.findSomeM? search = .ok none ↔ ∀ item ∈ items, search item = .ok none := by
  induction items with
  | nil => simp [List.findSomeM?]
  | cons item items hyp =>
    rw [List.forall_mem_cons, ← hyp, List.findSomeM?]
    rcases search item with stop | _ | _ <;> simp

theorem findSomeM_eq_ok (answer : Value → Option Result)
    (isAnswer : ∀ item ∈ items, search item = .ok (answer item)) :
    items.findSomeM? search = .ok (items.findSome? answer) := by
  induction items with
  | nil => rfl
  | cons item items hyp =>
    obtain ⟨headAnswer, tailAnswer⟩ := List.forall_mem_cons.mp isAnswer
    rw [List.findSomeM?, headAnswer, bind_ok, List.findSome?_cons]
    cases answer item with
    | none => exact hyp tailAnswer
    | some result => rfl

theorem findSomeM_ok (isOk : ∀ item ∈ items, ∃ result, search item = .ok result) :
    ∃ result, items.findSomeM? search = .ok result := by
  choose! answer isAnswer using isOk
  exact ⟨_, findSomeM_eq_ok answer isAnswer⟩

/-- A search finds nothing exactly when every item is free of what it looks for. -/
theorem findSomeM_spec {free : Value → Prop}
    (visits : ∀ item ∈ items, ∃ answer, search item = .ok answer ∧ (answer = none ↔ free item)) :
    ∃ answer, items.findSomeM? search = .ok answer ∧
      (answer = none ↔ ∀ item ∈ items, free item) := by
  obtain ⟨answer, isAnswer⟩ := findSomeM_ok fun item mem =>
    (visits item mem).imp fun _ both => both.1
  refine ⟨answer, isAnswer, ?_⟩
  have noneFound : answer = none ↔ ∀ item ∈ items, search item = .ok none := by
    rw [← findSomeM_eq_none_iff, isAnswer, Except.ok.injEq]
  refine noneFound.trans (forall₂_congr fun item mem => ?_)
  obtain ⟨found, isFound, finds⟩ := visits item mem
  rw [isFound, Except.ok.injEq, finds]

/-- A check accepts exactly when every item passes. -/
theorem allM_spec {passes : Value → Prop}
    (visits : ∀ item ∈ items, ∃ answer, condition item = .ok answer ∧
      (answer = true ↔ passes item)) :
    ∃ answer, items.allM condition = .ok answer ∧
      (answer = true ↔ ∀ item ∈ items, passes item) := by
  obtain ⟨answer, isAnswer⟩ := allM_ok fun item mem =>
    (visits item mem).imp fun _ both => both.1
  refine ⟨answer, isAnswer, ?_⟩
  have allPass : answer = true ↔ ∀ item ∈ items, condition item = .ok true := by
    rw [← allM_eq_true_iff, isAnswer, Except.ok.injEq]
  refine allPass.trans (forall₂_congr fun item mem => ?_)
  obtain ⟨passed, isPassed, decides⟩ := visits item mem
  rw [isPassed, Except.ok.injEq, decides]

/-! ### Certified answers -/

/-- The run returns, and it gives the answer only if the condition holds. -/
def Certifies (answer : Value) (run : Except Stop Value) (holds : Prop) : Prop :=
  ∃ result, run = .ok result ∧ (result = answer → holds)

namespace Certifies

variable {answer result : Value} {run : Except Stop Value} {holds other : Prop}

theorem of_ok (isHeld : holds) : Certifies answer (.ok result : Except Stop Value) holds :=
  ⟨result, rfl, fun _ => isHeld⟩

theorem of_ne (ne : result ≠ answer) : Certifies answer (.ok result : Except Stop Value) holds :=
  ⟨result, rfl, fun same => absurd same ne⟩

theorem mono (certified : Certifies answer run holds) (weaker : holds → other) :
    Certifies answer run other := by
  obtain ⟨result, isResult, certain⟩ := certified
  exact ⟨result, isResult, fun same => weaker (certain same)⟩

theorem of_eq (certified : Certifies answer run holds) (isAnswer : run = .ok answer) : holds := by
  obtain ⟨result, isResult, certain⟩ := certified
  exact certain (Except.ok.inj (isResult.symm.trans isAnswer))

theorem returns (certified : Certifies answer run holds) : ∃ result, run = .ok result :=
  certified.imp fun _ => And.left

theorem both (isFirst : Certifies true first holds) (isSecond : Certifies true second other) :
    Certifies true (Run.both first second) (holds ∧ other) := by
  obtain ⟨_ | _, rfl, certain⟩ := isFirst
  · exact .of_ne Bool.false_ne_true
  · exact isSecond.mono fun isOther => ⟨certain rfl, isOther⟩

theorem either (isFirst : Certifies true first holds) (isSecond : Certifies true second other) :
    Certifies true (Run.either first second) (holds ∨ other) := by
  obtain ⟨_ | _, rfl, certain⟩ := isFirst
  · exact isSecond.mono .inr
  · exact .of_ok (.inl (certain rfl))

theorem firstSome {first second : Except Stop (Option Value)} (isFirst : Certifies none first holds)
    (isSecond : Certifies none second other) :
    Certifies none (Run.firstSome first second) (holds ∧ other) := by
  obtain ⟨_ | found, rfl, certain⟩ := isFirst
  · exact isSecond.mono fun isOther => ⟨certain rfl, isOther⟩
  · exact .of_ne (Option.some_ne_none _)

variable {each : Value → Prop}

theorem allM (certified : ∀ item ∈ items, Certifies true (condition item) (each item)) :
    Certifies true (items.allM condition) (∀ item ∈ items, each item) := by
  obtain ⟨answer, isAnswer⟩ := allM_ok fun item mem => (certified item mem).returns
  refine ⟨answer, isAnswer, ?_⟩
  rintro rfl item mem
  exact (certified item mem).of_eq ((allM_eq_true_iff _ _).mp isAnswer item mem)

theorem findSomeM (certified : ∀ item ∈ items, Certifies none (search item) (each item)) :
    Certifies none (items.findSomeM? search) (∀ item ∈ items, each item) := by
  obtain ⟨answer, isAnswer⟩ := findSomeM_ok fun item mem => (certified item mem).returns
  refine ⟨answer, isAnswer, ?_⟩
  rintro rfl item mem
  exact (certified item mem).of_eq ((findSomeM_eq_none_iff _ _).mp isAnswer item mem)

end Certifies

end Run

end Outcome
