/-
This file says what endpoint ownership means.

Every logical endpoint has one holder, the actor that performs its operations.
A message that carries an endpoint hands it to the actor holding the receiving
endpoint at that moment. Replaying the events present on an assignment, in
source order, gives the holders in front of every event. This is the reference
that the ownership queries, the solved initial owners and the compiled actor
image are compared with.
-/

import HibanaChoreography.Source.Routes
import Mathlib.Logic.Function.Basic

namespace Hibana

open List

/-- The actor that holds each logical endpoint. -/
abbrev Holders := EndpointKey → UInt8

/-- A message that carries an endpoint makes the holder of the receiver its holder. -/
def Holders.transfer (holders : Holders) (message : Message) : Holders :=
  match message.payload with
  | .endpoint key => Function.update holders key (holders message.toKey)
  | .wire _ => holders

/-- The holders behind a list of events. -/
def replay (events : List (Nat × Message)) (holders : Holders) : Holders :=
  events.foldl (fun current event => current.transfer event.2) holders

@[simp] theorem replay_nil (holders : Holders) : replay [] holders = holders := rfl

@[simp] theorem replay_cons (event : Nat × Message) (events : List (Nat × Message))
    (holders : Holders) :
    replay (event :: events) holders = replay events (holders.transfer event.2) := rfl

theorem replay_append (first second : List (Nat × Message)) (holders : Holders) :
    replay (first ++ second) holders = replay second (replay first holders) :=
  foldl_append

variable {message : Message} {key : EndpointKey}

theorem transfer_of_ne (holders : Holders) (other : message.payload ≠ .endpoint key) :
    holders.transfer message key = holders key := by
  cases payload : message.payload with
  | wire schema => simp only [Holders.transfer, payload]
  | endpoint carried =>
    simp only [Holders.transfer, payload]
    refine Function.update_of_ne ?_ _ _
    rintro rfl
    exact other payload

/-- Events that do not carry an endpoint leave its holder alone. -/
theorem replay_of_ne (events : List (Nat × Message)) (holders : Holders)
    (other : ∀ event ∈ events, event.2.payload ≠ .endpoint key) :
    replay events holders key = holders key := by
  induction events generalizing holders with
  | nil => rfl
  | cons event events hyp =>
    rw [replay_cons, hyp _ fun later mem =>
      other later (mem_cons_of_mem _ mem), transfer_of_ne _ (other event mem_cons_self)]

/-- In a list of increasing positions the events below a cut are those below an earlier cut,
followed by those between the two. -/
theorem filter_below_split {events : List (Nat × Message)}
    (sorted : events.Pairwise fun first second => first.1 < second.1) {start cut : Nat}
    (ordered : start ≤ cut) :
    events.filter (·.1 < cut) =
      events.filter (·.1 < start) ++
        events.filter fun event => start ≤ event.1 ∧ event.1 < cut := by
  induction events with
  | nil => rfl
  | cons event events hyp =>
    obtain ⟨later, sortedTail⟩ := pairwise_cons.mp sorted
    by_cases low : event.1 < start
    · have below : event.1 < cut := by omega
      have notFrom : ¬ start ≤ event.1 := by omega
      rw [filter_cons, filter_cons, filter_cons, hyp sortedTail]
      simp [low, below, notFrom]
    · have noneBelow : (event :: events).filter (·.1 < start) = [] := by
        refine filter_eq_nil_iff.mpr fun other mem => ?_
        simp only [decide_eq_true_eq]
        rcases mem_cons.mp mem with rfl | inTail
        · exact low
        · have after := later other inTail
          omega
      rw [noneBelow, nil_append]
      refine filter_congr fun other mem => ?_
      have notLow : start ≤ other.1 := by
        rcases mem_cons.mp mem with rfl | inTail
        · omega
        · have after := later other inTail
          omega
      simp [notLow]

namespace Source

/-- The holders in front of a position: the present events below it, replayed. -/
def holdersAt (root : Source) (assignment : Assignment) (initial : Holders) (cut : Nat) :
    Holders :=
  replay ((root.presentEvents 0 assignment).filter (·.1 < cut)) initial

/-- No event lies behind the last one. -/
theorem holdersAt_min (root : Source) (env : Assignment) (initial : Holders) (cut : Nat) :
    root.holdersAt env initial (min cut root.eventCount) = root.holdersAt env initial cut := by
  unfold holdersAt
  congr 1
  refine filter_congr fun event mem => ?_
  have bounds := presentEvents_bounds mem
  have inside : event.1 < root.eventCount := by omega
  simp [inside]

/-- A subtree fills its window of positions: on this assignment the present events of the root
at those positions are the present events of the subtree. -/
def Window (root : Source) (assignment : Assignment) (source : Source) (start : Nat) : Prop :=
  (root.presentEvents 0 assignment).filter
      (fun event => start ≤ event.1 ∧ event.1 < start + source.eventCount) =
    source.presentEvents start assignment

theorem window_root (root : Source) (env : Assignment) : Window root env root 0 := by
  refine filter_eq_self.mpr fun event mem => ?_
  have bounds := presentEvents_bounds mem
  simpa using bounds.2

/-- A part of a window that holds exactly the events of a smaller subtree is its window. -/
theorem Window.narrow {root : Source} {env : Assignment} {source part : Source}
    {start partStart : Nat} (window : Window root env source start)
    (lower : start ≤ partStart)
    (upper : partStart + part.eventCount ≤ start + source.eventCount)
    (events : (source.presentEvents start env).filter
        (fun event => partStart ≤ event.1 ∧ event.1 < partStart + part.eventCount) =
      part.presentEvents partStart env) :
    Window root env part partStart := by
  unfold Window at window ⊢
  rw [← events, ← window, filter_filter]
  refine filter_congr fun event _ => ?_
  by_cases inside : partStart ≤ event.1 ∧ event.1 < partStart + part.eventCount
  · have outer : start ≤ event.1 ∧ event.1 < start + source.eventCount := by omega
    simp [inside, outer]
  · simp [inside]

/-- Cutting the events of two neighbours at their boundary gives each its own events. -/
theorem filter_left_of_append (left right : Source) (start : Nat) (env : Assignment) :
    (left.presentEvents start env ++ right.presentEvents (start + left.eventCount) env).filter
          (fun event => start ≤ event.1 ∧ event.1 < start + left.eventCount) =
      left.presentEvents start env := by
  rw [filter_append, filter_eq_self.mpr fun event mem => by
      simpa using presentEvents_bounds mem,
    filter_eq_nil_iff.mpr fun event mem => by
      have bounds := presentEvents_bounds mem
      simp only [decide_eq_true_eq]
      omega,
    append_nil]

theorem filter_right_of_append (left right : Source) (start : Nat) (env : Assignment) :
    (left.presentEvents start env ++ right.presentEvents (start + left.eventCount) env).filter
          (fun event => start + left.eventCount ≤ event.1 ∧
            event.1 < start + left.eventCount + right.eventCount) =
      right.presentEvents (start + left.eventCount) env := by
  rw [filter_append, filter_eq_nil_iff.mpr fun event mem => by
      have bounds := presentEvents_bounds mem
      simp only [decide_eq_true_eq]
      omega,
    filter_eq_self.mpr fun event mem => by
      simpa using presentEvents_bounds mem,
    nil_append]

variable {root source left right : Source} {env : Assignment} {start cut : Nat}
  {resolver : Option UInt16}

/-- The subtrees that an execution walks through, one after the other, in a node. -/
theorem Window.seq_left (window : Window root env (seq left right) start) :
    Window root env left start :=
  window.narrow le_rfl (by simp only [eventCount]; omega)
    (filter_left_of_append left right start env)

theorem Window.seq_right (window : Window root env (seq left right) start) :
    Window root env right (start + left.eventCount) :=
  window.narrow (by omega) (by simp only [eventCount]; omega)
    (filter_right_of_append left right start env)

theorem Window.route_left (window : Window root env (route left right resolver) start)
    (chosen : env (routeScope start left right) = .left) : Window root env left start := by
  refine window.narrow le_rfl (by simp only [eventCount]; omega) ?_
  simp only [presentEvents, chosen]
  exact filter_eq_self.mpr fun event mem => by simpa using presentEvents_bounds mem

theorem Window.route_right (window : Window root env (route left right resolver) start)
    (chosen : env (routeScope start left right) = .right) :
    Window root env right (start + left.eventCount) := by
  refine window.narrow (by omega) (by simp only [eventCount]; omega) ?_
  simp only [presentEvents, chosen]
  exact filter_eq_self.mpr fun event mem => by simpa using presentEvents_bounds mem

/-- Inside its window a subtree alone moves the holders. -/
theorem Window.holdersAt (window : Window root env source start) (initial : Holders)
    (lower : start ≤ cut) (upper : cut ≤ start + source.eventCount) :
    root.holdersAt env initial cut = replay ((source.presentEvents start env).filter (·.1 < cut))
        (root.holdersAt env initial start) := by
  unfold Source.holdersAt
  rw [filter_below_split (root.presentEvents_sorted 0 env) lower, replay_append]
  rw [← window, filter_filter]
  congr 1
  refine filter_congr fun event _ => ?_
  by_cases below : event.1 < cut
  · have inside : event.1 < start + source.eventCount := by omega
    simp [below, inside]
  · simp [below]

/-- Behind a message its endpoint has moved. -/
theorem Window.holdersAt_send (window : Window root env (send message) start) (initial : Holders) :
    root.holdersAt env initial (start + 1) =
      (root.holdersAt env initial start).transfer message := by
  rw [window.holdersAt initial (by omega) (Nat.le_refl (start + 1))]
  simp [presentEvents]

/-- Behind a left arm the skipped right arm has moved nothing. -/
theorem Window.holdersAt_stop_of_left (window : Window root env (route left right resolver) start)
    (chosen : env (routeScope start left right) = .left) (initial : Holders)
    (lower : start + left.eventCount ≤ cut)
    (upper : cut ≤ start + left.eventCount + right.eventCount) :
    root.holdersAt env initial cut = root.holdersAt env initial (start + left.eventCount) := by
  have count : (route left right resolver).eventCount = left.eventCount + right.eventCount := rfl
  rw [window.holdersAt initial (by omega) (by omega),
    window.holdersAt initial (Nat.le_add_right _ _) (by omega)]
  congr 1
  refine filter_congr fun event mem => ?_
  simp only [presentEvents, chosen] at mem
  have bounds := presentEvents_bounds mem
  have belowCut : event.1 < cut := by omega
  simp [belowCut, bounds.2]

/-- In front of a right arm the skipped left arm has moved nothing. -/
theorem Window.holdersAt_split_of_right (window : Window root env (route left right resolver) start)
    (chosen : env (routeScope start left right) = .right) (initial : Holders)
    (lower : start ≤ cut) (upper : cut ≤ start + left.eventCount) :
    root.holdersAt env initial cut = root.holdersAt env initial start := by
  have count : (route left right resolver).eventCount = left.eventCount + right.eventCount := rfl
  rw [window.holdersAt initial lower (by omega)]
  have none : ((route left right resolver).presentEvents start env).filter (·.1 < cut) = [] := by
    refine filter_eq_nil_iff.mpr fun event mem => ?_
    simp only [presentEvents, chosen] at mem
    have bounds := presentEvents_bounds mem
    simp only [decide_eq_true_eq]
    omega
  rw [none, replay_nil]

/-- A subtree that never carries an endpoint keeps its holder. -/
theorem Window.holdersAt_of_not_carried (window : Window root env source start)
    (initial : Holders) (other : ∀ message ∈ source.messages, message.payload ≠ .endpoint key)
    (lower : start ≤ cut) (upper : cut ≤ start + source.eventCount) :
    root.holdersAt env initial cut key = root.holdersAt env initial start key := by
  rw [window.holdersAt initial lower upper]
  refine replay_of_ne _ _ fun event mem => ?_
  exact other event.2 (mem_messages_of_mem_presentEvents (mem_of_mem_filter mem))

end Source

end Hibana
