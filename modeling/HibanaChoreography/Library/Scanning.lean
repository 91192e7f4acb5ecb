/-
This file is about scans of a range that jump.

A scan takes the pending positions of a range in order. At each one it answers, goes on
with a new state, or jumps over a stretch of the range. When no position of the stretch
has anything to say, the scan answers like the one that tests every pending position.
-/

import HibanaChoreography.Library.Run

namespace Scanning

open Outcome List

variable {State Answer : Type}

/-- What a scan does at a position. -/
inductive Visit (State Answer : Type) where
  | answer (value : Answer)
  | next (state : State)
  | jump (target : Nat)

/-- The pending positions of a range. -/
def pendingIn (pending : Nat → Bool) (start stop : Nat) : List Nat :=
  (List.range' start (stop - start)).filter pending

/-- A scan of the positions in hand. A jump takes those of the range from its target on. -/
def scan (pending : Nat → Bool) (stop : Nat) (visit : State → Nat → Run (Visit State Answer))
    (finish : State → Answer) : Nat → List Nat → State → Run Answer
  | _, [], state => .ok (finish state)
  | 0, _ :: _, _ => .error .fuel
  | fuel + 1, position :: rest, state => do
    match ← visit state position with
    | .answer value => return value
    | .next state => scan pending stop visit finish fuel rest state
    | .jump target =>
      scan pending stop visit finish fuel (pendingIn pending (min target stop) stop) state

/-- The positions one by one: a test stops with an answer or goes on with a state. -/
def each (test : State → Nat → Except Answer State) (finish : State → Answer)
    (positions : List Nat) (state : State) : Answer :=
  match positions.foldlM test state with
  | .error value => value
  | .ok state => finish state

variable {pending : Nat → Bool} {start middle stop position : Nat} {rest : List Nat}
  {test : State → Nat → Except Answer State} {finish : State → Answer}

theorem mem_pendingIn :
    position ∈ pendingIn pending start stop ↔
      start ≤ position ∧ position < stop ∧ pending position = true := by
  rw [pendingIn, mem_filter, mem_range'_1, and_assoc]
  constructor
  · rintro ⟨low, high, isPending⟩
    exact ⟨low, by omega, isPending⟩
  · rintro ⟨low, high, isPending⟩
    exact ⟨low, by omega, isPending⟩

theorem pendingIn_append (low : start ≤ middle) (high : middle ≤ stop) :
    pendingIn pending start middle ++ pendingIn pending middle stop =
      pendingIn pending start stop := by
  have isLength : stop - start = middle - start + (stop - middle) := by omega
  rw [pendingIn, pendingIn, pendingIn, isLength, ← range'_append_1, Nat.add_sub_cancel' low,
    filter_append]

/-- Behind the first pending position of a range are those of the rest of the range. -/
theorem rest_of_pendingIn (isCons : pendingIn pending start stop = position :: rest) :
    rest = pendingIn pending (position + 1) stop := by
  have mem : position ∈ pendingIn pending start stop := isCons ▸ mem_cons_self
  obtain ⟨low, high, isPending⟩ := mem_pendingIn.mp mem
  have isOne : pendingIn pending position (position + 1) = [position] := by
    rw [pendingIn, Nat.add_sub_cancel_left, range'_one, filter_cons_of_pos isPending,
      filter_nil]
  rw [← pendingIn_append low (Nat.le_of_lt high), ← pendingIn_append (Nat.le_succ position) high,
    isOne] at isCons
  -- Nothing stands in front: it would be the first one, and later than itself.
  cases isFront : pendingIn pending start position with
  | nil =>
    rw [isFront] at isCons
    exact (List.cons.inj isCons).2.symm
  | cons first front =>
    rw [isFront] at isCons
    obtain ⟨rfl, _⟩ := List.cons.inj isCons
    have inFront : first ∈ pendingIn pending start first := isFront ▸ mem_cons_self
    exact absurd (mem_pendingIn.mp inFront).2.1 (Nat.lt_irrefl _)

theorem pendingIn_eq_nil (nothing : ∀ position, start ≤ position → position < stop →
    pending position = false) : pendingIn pending start stop = [] := by
  refine eq_nil_iff_forall_not_mem.mpr fun position mem => ?_
  obtain ⟨low, high, isPending⟩ := mem_pendingIn.mp mem
  rw [nothing position low high] at isPending
  cases isPending

/-- The first pending position of a range is that of a later part, when none is in front. -/
theorem head?_pendingIn (low : start ≤ middle)
    (nothing : ∀ position, start ≤ position → position < middle → pending position = false) :
    (pendingIn pending start stop).head? = (pendingIn pending middle stop).head? := by
  rcases Nat.le_total middle stop with high | isPast
  · rw [← pendingIn_append low high, pendingIn_eq_nil nothing, nil_append]
  · rw [pendingIn_eq_nil fun position isLow isHigh => nothing position isLow (by omega),
      pendingIn_eq_nil fun position isLow isHigh => absurd isHigh (by omega)]

theorem head?_pendingIn_self (inside : start < stop) (isPending : pending start = true) :
    (pendingIn pending start stop).head? = some start := by
  have isLength : stop - start = stop - (start + 1) + 1 := by omega
  rw [pendingIn, isLength, range'_succ, filter_cons_of_pos isPending, head?_cons]

/-- The first pending position of a range, and the pending positions behind it. -/
theorem pendingIn_eq_cons (low : start ≤ position) (high : position < stop)
    (isPending : pending position = true)
    (nothing : ∀ other, start ≤ other → other < position → pending other = false) :
    pendingIn pending start stop = position :: pendingIn pending (position + 1) stop := by
  have isHead := head?_pendingIn_self high isPending
  rw [← head?_pendingIn low nothing] at isHead
  obtain ⟨rest, isCons⟩ := head?_eq_some_iff.mp isHead
  rw [isCons, rest_of_pendingIn isCons]

theorem of_head?_pendingIn (isHead : (pendingIn pending start stop).head? = some position) :
    start ≤ position ∧ position < stop ∧ pending position = true ∧
      ∀ other, start ≤ other → other < position → pending other = false := by
  obtain ⟨rest, isCons⟩ := head?_eq_some_iff.mp isHead
  obtain ⟨low, high, isPending⟩ := mem_pendingIn.mp (isCons ▸ mem_cons_self)
  refine ⟨low, high, isPending, fun other isLow isEarlier =>
    Bool.eq_false_iff.mpr fun isOther => ?_⟩
  have mem := mem_pendingIn.mpr ⟨isLow, Nat.lt_trans isEarlier high, isOther⟩
  rw [isCons, rest_of_pendingIn isCons] at mem
  rcases mem_cons.mp mem with rfl | isLater
  · exact Nat.lt_irrefl _ isEarlier
  · exact Nat.lt_irrefl _ (Nat.lt_trans isEarlier (mem_pendingIn.mp isLater).1)

theorem foldlM_eq_self {positions : List Nat}
    (silent : ∀ position ∈ positions, ∀ state, test state position = .ok state) (state : State) :
    positions.foldlM test state = .ok state := by
  induction positions with
  | nil => rfl
  | cons position positions hyp =>
    rw [foldlM_cons, silent position mem_cons_self, Run.bind_ok]
    exact hyp fun other mem => silent other (mem_cons_of_mem _ mem)

/-- A visit does what the test of the position does, or it jumps forward over positions that have
nothing to say. -/
def Agrees (test : State → Nat → Except Answer State) (stop : Nat) (state : State)
    (position : Nat) : Visit State Answer → Prop
  | .answer value => test state position = .error value
  | .next after => test state position = .ok after
  | .jump target => position < target ∧ ∀ other, position ≤ other → other < target →
      other < stop → ∀ state, test state other = .ok state

/-- A scan whose visits agree with a test answers like the test of every pending position. -/
theorem scan_eq_each {visit : State → Nat → Run (Visit State Answer)}
    (agrees : ∀ state position, position < stop → pending position = true →
      ∃ visited, visit state position = .ok visited ∧ Agrees test stop state position visited)
    {fuel : Nat} (enough : stop - start ≤ fuel) (state : State) :
    scan pending stop visit finish fuel (pendingIn pending start stop) state =
      .ok (each test finish (pendingIn pending start stop) state) := by
  induction fuel generalizing start state with
  | zero =>
    rw [pendingIn, Nat.le_zero.mp enough]
    rfl
  | succ fuel hyp =>
    cases isCons : pendingIn pending start stop with
    | nil => rfl
    | cons position rest =>
      obtain ⟨low, high, isPending⟩ := mem_pendingIn.mp (isCons ▸ mem_cons_self)
      obtain ⟨visited, isVisit, agree⟩ := agrees state position high isPending
      rw [rest_of_pendingIn isCons, scan, isVisit, Run.bind_ok, each, foldlM_cons]
      cases visited with
      | answer value =>
        rw [show test state position = .error value from agree]
        rfl
      | next after =>
        rw [show test state position = .ok after from agree]
        exact hyp (by omega) after
      | jump target =>
        obtain ⟨isLater, silent⟩ := agree
        rw [silent position (Nat.le_refl _) isLater high, Run.bind_ok, ← pendingIn_append
          (show position + 1 ≤ min target stop by omega) (Nat.min_le_right target stop),
          foldlM_append, foldlM_eq_self, Run.bind_ok]
        · exact hyp (by omega) state
        · intro other mem
          obtain ⟨behind, inFront, _⟩ := mem_pendingIn.mp mem
          exact silent other (by omega) (by omega) (by omega)

/-- A test that stops at a position of a kind finds out whether there is none. -/
theorem each_eq_all (blocks : Nat → Bool) (positions : List Nat) :
    each (fun _ position => if blocks position then .error false else .ok ()) (fun _ => true)
      positions () = positions.all fun position => !blocks position := by
  induction positions with
  | nil => rfl
  | cons position positions hyp =>
    rw [each, foldlM_cons, all_cons]
    cases blocks position with
    | true => rfl
    | false => exact hyp

end Scanning
