/-
This file models the typed choreography source, `g/source/tree.rs`.

The typed constructors of the source cache in every node the number of events
below it and one bit per role that the subtree transfers. The cached values are
functions of the subtree alone, so the model computes them by recursion and the
node carries only its children. Event positions are `usize` in the source; a
source with `2 ^ 64` messages cannot be written down, so they are `Nat` here.
-/

import Mathlib.Data.BitVec
import Mathlib.Tactic.Common

namespace Hibana

/-- A logical endpoint: a role of one composed component. -/
structure EndpointKey where
  component : UInt16
  role : UInt8
  deriving DecidableEq, Repr

/-- What a message carries: a value of some wire schema, or the right to act as an endpoint. -/
inductive Payload where
  | wire (schema : UInt32)
  | endpoint (key : EndpointKey)
  deriving DecidableEq, Repr

/-- One message of the choreography. -/
structure Message where
  fromKey : EndpointKey
  toKey : EndpointKey
  label : UInt8
  payload : Payload
  deriving DecidableEq, Repr

/-- The choreography source tree. -/
inductive Source where
  | send (message : Message)
  | seq (left right : Source)
  | par (left right : Source)
  | route (left right : Source) (resolver : Option UInt16)
  | roll (body : Source)
  deriving DecidableEq, Repr

namespace Source

/-- The number of messages below a node. -/
def eventCount : Source → Nat
  | send _ => 1
  | seq left right | par left right | route left right _ => left.eventCount + right.eventCount
  | roll body => body.eventCount

/-- Source occurrence lookup. The source panics outside the fragment. -/
def messageAt : Source → Nat → Option Message
  | send message, event => if event = 0 then some message else none
  | seq left right, event | par left right, event | route left right _, event =>
    if event < left.eventCount then left.messageAt event
    else right.messageAt (event - left.eventCount)
  | roll body, event => body.messageAt event

/-- Strict source order: it comes from `seq`, never from enumeration, `par` or two different
route arms. A roll contributes the order of one visit of its body. -/
def before (source : Source) (first second : Nat) : Bool :=
  if second ≤ first then false
  else
    match source with
    | send _ => false
    | seq left right =>
      if first < left.eventCount ∧ second < left.eventCount then left.before first second
      else if left.eventCount ≤ first ∧ left.eventCount ≤ second then
        right.before (first - left.eventCount) (second - left.eventCount)
      else decide (first < left.eventCount ∧ left.eventCount ≤ second)
    | par left right | route left right _ =>
      if first < left.eventCount ∧ second < left.eventCount then left.before first second
      else if left.eventCount ≤ first ∧ left.eventCount ≤ second then
        right.before (first - left.eventCount) (second - left.eventCount)
      else false
    | roll body => body.before first second

/-- One word of the role set that a subtree transfers, over the complete `u8` role domain. -/
def transferRoleWord : Source → Nat → BitVec 64
  | send message, word =>
    match message.payload with
    | .endpoint key =>
      if key.role.toNat / 64 = word then 1#64 <<< (key.role.toNat % 64) else 0#64
    | .wire _ => 0#64
  | seq left right, word | par left right, word | route left right _, word =>
    left.transferRoleWord word ||| right.transferRoleWord word
  | roll body, word => body.transferRoleWord word

/-- Whether the subtree transfers some endpoint with the role of `key`. -/
def mayTransfer (source : Source) (key : EndpointKey) : Bool :=
  source.transferRoleWord (key.role.toNat / 64) &&& (1#64 <<< (key.role.toNat % 64)) != 0#64

/-- Whether some message of the subtree names the endpoint as sender, receiver or payload. -/
def uses : Source → EndpointKey → Bool
  | send message, key =>
    message.fromKey == key || message.toKey == key || message.payload == .endpoint key
  | seq left right, key | par left right, key | route left right _, key =>
    left.uses key || right.uses key
  | roll body, key => body.uses key

/-- Whether some message of the subtree carries exactly this endpoint. -/
def transfers (source : Source) (key : EndpointKey) : Bool :=
  if source.mayTransfer key then
    match source with
    | send message => message.payload == .endpoint key
    | seq left right | par left right | route left right _ =>
      left.transfers key || right.transfers key
    | roll body => body.transfers key
  else false

/-- The messages of a source, in source order. -/
def messages : Source → List Message
  | send message => [message]
  | seq left right | par left right | route left right _ => left.messages ++ right.messages
  | roll body => body.messages

/-! ### Transferred endpoints -/

theorem word_or_ne_zero (first second mask : BitVec 64) :
    ((first ||| second) &&& mask != 0#64) =
      ((first &&& mask != 0#64) || (second &&& mask != 0#64)) := by
  have spread : (first ||| second) &&& mask = (first &&& mask) ||| (second &&& mask) := by
    ext bit
    simp [Bool.and_or_distrib_right]
  rw [spread, Bool.eq_iff_iff]
  simp only [Bool.or_eq_true, bne_iff_ne, ne_eq, BitVec.or_eq_zero_iff, not_and_or]

variable {message : Message} {key : EndpointKey}

theorem mayTransfer_send (carried : message.payload = .endpoint key) :
    (send message).mayTransfer key = true := by
  simp only [mayTransfer, transferRoleWord, carried, if_true, BitVec.and_self]
  have small : key.role.toNat % 64 < 64 := Nat.mod_lt _ (by decide)
  have bit : (1#64 <<< (key.role.toNat % 64)).getLsbD (key.role.toNat % 64) = true := by
    simp [small]
  rw [bne_iff_ne]
  intro zero
  rw [zero, BitVec.getLsbD_zero] at bit
  cases bit

variable {source : Source}

/-- The cached role words never hide a transfer. -/
theorem mayTransfer_of_mem_messages (mem : message ∈ source.messages)
    (carried : message.payload = .endpoint key) : source.mayTransfer key = true := by
  induction source with
  | send sent =>
    obtain rfl := List.mem_singleton.mp mem
    exact mayTransfer_send carried
  | seq left right hypLeft hypRight | par left right hypLeft hypRight
  | route left right resolver hypLeft hypRight =>
    simp only [mayTransfer, transferRoleWord, word_or_ne_zero, Bool.or_eq_true]
    exact (List.mem_append.mp mem).imp hypLeft hypRight
  | roll body hypBody => exact hypBody mem

theorem transfers_iff (source : Source) (key : EndpointKey) :
    source.transfers key = true ↔ ∃ message ∈ source.messages, message.payload = .endpoint key := by
  constructor
  · intro transferred
    induction source with
    | send sent =>
      unfold transfers at transferred
      split at transferred
      · exact ⟨sent, List.mem_singleton_self _, by simpa using transferred⟩
      · cases transferred
    | seq left right hypLeft hypRight | par left right hypLeft hypRight
    | route left right resolver hypLeft hypRight =>
      unfold transfers at transferred
      split at transferred
      · rcases Bool.or_eq_true_iff.mp transferred with inLeft | inRight
        · obtain ⟨message, mem, carried⟩ := hypLeft inLeft
          exact ⟨message, List.mem_append_left _ mem, carried⟩
        · obtain ⟨message, mem, carried⟩ := hypRight inRight
          exact ⟨message, List.mem_append_right _ mem, carried⟩
      · cases transferred
    | roll body hypBody =>
      unfold transfers at transferred
      split at transferred
      · exact hypBody transferred
      · cases transferred
  · rintro ⟨message, mem, carried⟩
    have guard := mayTransfer_of_mem_messages mem carried
    induction source with
    | send sent =>
      obtain rfl := List.mem_singleton.mp mem
      simp [transfers, guard, carried]
    | seq left right hypLeft hypRight | par left right hypLeft hypRight
    | route left right resolver hypLeft hypRight =>
      unfold transfers
      rw [if_pos guard, Bool.or_eq_true]
      exact (List.mem_append.mp mem).imp
        (fun inLeft => hypLeft inLeft (mayTransfer_of_mem_messages inLeft carried))
        (fun inRight => hypRight inRight (mayTransfer_of_mem_messages inRight carried))
    | roll body hypBody =>
      unfold transfers
      rw [if_pos guard]
      exact hypBody mem guard

theorem uses_iff (source : Source) (key : EndpointKey) :
    source.uses key = true ↔ ∃ message ∈ source.messages,
      message.fromKey = key ∨ message.toKey = key ∨ message.payload = .endpoint key := by
  induction source with
  | send sent => simp [uses, messages, or_assoc]
  | seq left right hypLeft hypRight | par left right hypLeft hypRight
  | route left right resolver hypLeft hypRight =>
    simp only [uses, messages, Bool.or_eq_true, hypLeft, hypRight, List.mem_append,
      or_and_right, exists_or]
  | roll body hypBody => exact hypBody

/-! ### The source order of a node -/

section Before

attribute [local simp] before

variable {left right body : Source} {resolver : Option UInt16} {first second : Nat}

theorem lt_of_before (ordered : source.before first second = true) : first < second := by
  by_contra reversed
  have notBefore : source.before first second = false := by
    unfold before
    rw [if_pos (Nat.not_lt.mp reversed)]
  rw [notBefore] at ordered
  cases ordered

theorem before_of_le (reversed : second ≤ first) : source.before first second = false := by
  unfold before
  rw [if_pos reversed]

theorem before_seq_left (ordered : first < second) (inside : second < left.eventCount) :
    (seq left right).before first second = left.before first second := by
  rw [before, if_neg (by omega), if_pos (by omega)]

theorem before_seq_right (ordered : first < second) (inside : left.eventCount ≤ first) :
    (seq left right).before first second =
      right.before (first - left.eventCount) (second - left.eventCount) := by
  rw [before, if_neg (by omega), if_neg (by omega), if_pos (by omega)]

theorem before_seq_across (inLeft : first < left.eventCount) (inRight : left.eventCount ≤ second) :
    (seq left right).before first second = true := by
  rw [before, if_neg (by omega), if_neg (by omega), if_neg (by omega)]
  simp [inLeft, inRight]

theorem before_par_left (ordered : first < second) (inside : second < left.eventCount) :
    (par left right).before first second = left.before first second := by
  rw [before, if_neg (by omega), if_pos (by omega)]

theorem before_par_right (ordered : first < second) (inside : left.eventCount ≤ first) :
    (par left right).before first second =
      right.before (first - left.eventCount) (second - left.eventCount) := by
  rw [before, if_neg (by omega), if_neg (by omega), if_pos (by omega)]

theorem before_par_across (inLeft : first < left.eventCount) (inRight : left.eventCount ≤ second) :
    (par left right).before first second = false := by
  rw [before, if_neg (by omega), if_neg (by omega), if_neg (by omega)]

theorem before_route_left (ordered : first < second) (inside : second < left.eventCount) :
    (route left right resolver).before first second = left.before first second := by
  rw [before, if_neg (by omega), if_pos (by omega)]

theorem before_route_right (ordered : first < second) (inside : left.eventCount ≤ first) :
    (route left right resolver).before first second =
      right.before (first - left.eventCount) (second - left.eventCount) := by
  rw [before, if_neg (by omega), if_neg (by omega), if_pos (by omega)]

theorem before_route_across (inLeft : first < left.eventCount)
    (inRight : left.eventCount ≤ second) :
    (route left right resolver).before first second = false := by
  rw [before, if_neg (by omega), if_neg (by omega), if_neg (by omega)]

theorem before_roll : (roll body).before first second = body.before first second := by
  by_cases reversed : second ≤ first
  · rw [before_of_le reversed, before_of_le reversed]
  · rw [before, if_neg reversed]

end Before

end Source

end Hibana
