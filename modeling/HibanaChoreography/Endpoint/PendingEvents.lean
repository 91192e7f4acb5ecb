/-
This file models the iterator over the rows that are not completed, in
`typestate/cursor/pending_events.rs`.

The completed rows are the bits of 32-bit words. The iterator keeps the clear bits of one
word that are in its range and not yet taken. It takes the lowest of them, and when there
is none left it loads the next word, as long as the range goes on there. Ranges lie inside
the words, so the positions, which are natural numbers here, are those of the code.
-/

import HibanaChoreography.Library.BitWords
import HibanaChoreography.Library.Scanning

namespace Hibana

open Outcome Scanning

/-- The bit of a position is clear. -/
def isClear (words : List (BitVec 32)) (position : Nat) : Bool :=
  !(words[position / 32]?.getD (BitVec.ofNat 32 0)).getLsbD (position % 32)

def prefixMask (len : Nat) : BitVec 32 :=
  if 32 ≤ len then BitVec.allOnes 32 else (1 : BitVec 32) <<< len - 1

structure PendingEvents where
  words : List (BitVec 32)
  word : Nat
  stop : Nat
  pending : BitVec 32

namespace PendingEvents

def readWord (words : List (BitVec 32)) (index : Nat) : Run (BitVec 32) :=
  match words[index]? with
  | some word => .ok word
  | none => .error (.panic "index out of bounds")

def new (words : List (BitVec 32)) (start stop : Nat) : Run PendingEvents := do
  let word := start / 32
  if stop ≤ start then return ⟨words, word, stop, 0⟩
  else
    let completed ← readWord words word
    return ⟨words, word, stop, ~~~ completed &&& (BitVec.allOnes 32 <<< (start % 32)) &&&
      prefixMask (stop - word * 32)⟩

/-- One turn of the loop of `next`: it yields the lowest bit in hand, loads the next word, or
ends. -/
def advance (events : PendingEvents) : Run (Option (Option Nat × PendingEvents)) :=
  if events.pending ≠ 0 then
    .ok (some (some (events.word * 32 + events.pending.ctz.toNat),
      { events with pending := events.pending &&& (events.pending - 1) }))
  else
    let start := (events.word + 1) * 32
    if events.stop ≤ start then .ok none
    else do
      let completed ← readWord events.words (events.word + 1)
      return some (none, { events with
        word := events.word + 1, pending := ~~~ completed &&& prefixMask (events.stop - start) })

/-- What the iterator yields until it ends. -/
def collect : Nat → PendingEvents → Run (List Nat)
  | 0, _ => .error .fuel
  | fuel + 1, events => do
    match ← events.advance with
    | none => return []
    | some (yielded, rest) => return yielded.toList ++ (← collect fuel rest)

/-! ### The bits in hand -/

/-- The bits in hand are the clear ones of a word from a position on. -/
structure HoldsFrom (events : PendingEvents) (first : Nat) : Prop where
  low : events.word * 32 ≤ first
  high : first ≤ (events.word + 1) * 32
  bits : ∀ bit < 32, events.pending.getLsbD bit = true ↔ first ≤ events.word * 32 + bit ∧
    events.word * 32 + bit < events.stop ∧ isClear events.words (events.word * 32 + bit) = true

theorem getLsbD_prefixMask (len : Nat) {bit : Nat} (inside : bit < 32) :
    (prefixMask len).getLsbD bit = decide (bit < len) := by
  unfold prefixMask
  split
  · rw [BitVec.getLsbD_allOnes, decide_eq_true inside, decide_eq_true (by omega)]
  · rename_i short
    have isPower : ((1 : BitVec 32) <<< len).toNat = 2 ^ len := by
      have small : 2 ^ len < 2 ^ 32 := Nat.pow_lt_pow_right (by decide) (by omega)
      rw [BitVec.toNat_shiftLeft, Nat.shiftLeft_eq]
      exact (congrArg (· % 2 ^ 32) (Nat.one_mul _)).trans (Nat.mod_eq_of_lt small)
    have isMask : ((1 : BitVec 32) <<< len - 1).toNat = 2 ^ len - 1 := by
      rw [BitVec.toNat_sub_of_le
        (by rw [BitVec.le_def, isPower]; exact Nat.two_pow_pos len), isPower]
      rfl
    rw [BitVec.getLsbD, isMask, Nat.testBit_two_pow_sub_one]

/-- The clear bits of a word from a position on are in hand, up to the end of the range. -/
theorem holdsFrom_word {words : List (BitVec 32)} {word first stop : Nat}
    {completed bits : BitVec 32} (isWord : words[word]? = some completed)
    (low : word * 32 ≤ first) (high : first ≤ (word + 1) * 32)
    (isBits : ∀ bit < 32, bits.getLsbD bit =
      (!completed.getLsbD bit && decide (first ≤ word * 32 + bit))) :
    HoldsFrom ⟨words, word, stop, bits &&& prefixMask (stop - word * 32)⟩ first := by
  refine ⟨low, high, fun bit inside => ?_⟩
  rw [isClear, show (word * 32 + bit) / 32 = word by omega,
    show (word * 32 + bit) % 32 = bit by omega, isWord, Option.getD_some, BitVec.getLsbD_and,
    getLsbD_prefixMask _ inside, isBits bit inside]
  have isBelow : bit < stop - word * 32 ↔ word * 32 + bit < stop := by omega
  simp only [Bool.and_eq_true, decide_eq_true_eq, isBelow]
  tauto

variable {events : PendingEvents} {first : Nat}

/-- No position is left in front of the lowest bit in hand. -/
theorem HoldsFrom.not_clear (holds : events.HoldsFrom first) {bit other : Nat}
    (none : ∀ lower < bit, events.pending.getLsbD lower = false) (inside : bit ≤ 32)
    (low : first ≤ other) (high : other < events.word * 32 + bit) (isBefore : other < events.stop) :
    isClear events.words other = false := by
  obtain ⟨offset, rfl⟩ := Nat.exists_eq_add_of_le (holds.low.trans low)
  refine Bool.eq_false_iff.mpr fun isClear => ?_
  have isSet := (holds.bits offset (by omega)).mpr ⟨low, isBefore, isClear⟩
  rw [none offset (by omega)] at isSet
  cases isSet

/-- The iterator yields the positions that are left. -/
theorem collect_eq (holds : events.HoldsFrom first)
    (inside : first < events.stop → events.stop ≤ events.words.length * 32) {fuel : Nat}
    (enough : events.stop - first + (events.words.length - events.word) < fuel) :
    events.collect fuel = .ok (pendingIn (isClear events.words) first events.stop) := by
  induction fuel generalizing events first with
  | zero => cases enough
  | succ fuel hyp =>
    have isHigh := holds.high
    rw [collect, advance]
    split
    · rename_i nonzero
      have isSet := BitVec.getLsbD_true_ctz_of_ne_zero nonzero
      have inWord := BitVec.lt_of_getLsbD isSet
      obtain ⟨low, high, isFirst⟩ := (holds.bits _ inWord).mp isSet
      have isRest : HoldsFrom { events with pending := events.pending &&& (events.pending - 1) }
          (events.word * 32 + events.pending.ctz.toNat + 1) := by
        refine ⟨by dsimp only; omega, by dsimp only; omega, fun bit isBit => ?_⟩
        dsimp only
        rw [BitWords.getLsbD_and_sub_one nonzero, Bool.and_eq_true, decide_eq_true_eq]
        constructor
        · rintro ⟨isThere, differs⟩
          have notBelow : ¬ bit < events.pending.ctz.toNat := fun below =>
            absurd ((BitVec.getLsbD_false_of_lt_ctz below).symm.trans isThere) Bool.false_ne_true
          exact ⟨by omega, ((holds.bits bit isBit).mp isThere).2⟩
        · rintro ⟨isLow, isOpen⟩
          exact ⟨(holds.bits bit isBit).mpr ⟨by omega, isOpen⟩, by omega⟩
      rw [Run.bind_ok, pendingIn_eq_cons low high isFirst fun other isLow isBelow =>
        holds.not_clear (fun _ => BitVec.getLsbD_false_of_lt_ctz) (Nat.le_of_lt inWord)
          isLow isBelow (by omega)]
      dsimp only
      rw [hyp isRest (fun _ => inside (by omega)) (by dsimp only; omega)]
      rfl
    · rename_i isZero
      have noneHere : ∀ other, first ≤ other → other < (events.word + 1) * 32 →
          other < events.stop → isClear events.words other = false := fun other low high isBefore =>
        holds.not_clear (fun lower _ => by rw [not_not.mp isZero]; exact BitVec.getLsbD_zero)
          (Nat.le_refl 32) low (by omega) isBefore
      dsimp only
      split
      · rw [pendingIn_eq_nil fun other low high => noneHere other low (by omega) high]
        rfl
      · rename_i goesOn
        have isInside := inside (by omega)
        have isWord := List.getElem?_eq_getElem
          (show events.word + 1 < events.words.length by omega)
        rw [readWord, isWord, Run.bind_ok, ← pendingIn_append isHigh (Nat.le_of_not_le goesOn),
          pendingIn_eq_nil fun other low high => noneHere other low high (by omega)]
        have isNext : HoldsFrom { events with word := events.word + 1, pending := ~~~
            events.words[events.word + 1] &&& prefixMask (events.stop - (events.word + 1) * 32) }
            ((events.word + 1) * 32) := by
          refine holdsFrom_word isWord le_rfl (by omega) fun bit isBit => ?_
          rw [BitVec.getLsbD_not, decide_eq_true isBit, decide_eq_true (Nat.le_add_right ..)]
          exact Bool.and_comm ..
        exact congrArg (· >>= _) (hyp isNext (fun _ => isInside) (by dsimp only; omega))

theorem new_spec {words : List (BitVec 32)} {start stop : Nat}
    (inside : start < stop → stop ≤ words.length * 32) :
    ∃ events, new words start stop = .ok events ∧ events.words = words ∧ events.stop = stop ∧
      events.HoldsFrom start := by
  rw [new]
  split
  · rename_i isEmpty
    refine ⟨_, rfl, rfl, rfl, by dsimp only; omega, by dsimp only; omega, fun bit isBit => ?_⟩
    dsimp only
    constructor
    · exact fun isSet => absurd (BitVec.getLsbD_zero.symm.trans isSet) Bool.false_ne_true
    · rintro ⟨low, high, _⟩
      omega
  · rename_i filled
    have isWord := List.getElem?_eq_getElem (show start / 32 < words.length by omega)
    rw [readWord, isWord, Run.bind_ok]
    refine ⟨_, rfl, rfl, rfl, holdsFrom_word isWord (by omega) (by omega) fun bit isBit => ?_⟩
    rw [← BitWords.fromBit, BitWords.getLsbD_fromBit, BitVec.getLsbD_not, decide_eq_true isBit,
      Bool.true_and]
    exact congrArg _ (decide_eq_decide.mpr (by omega))

/-- The iterator reads inside the words, yields the clear positions of its range in increasing
order, each of them once, and ends. -/
theorem yields_clear_positions (words : List (BitVec 32)) (start stop extra : Nat)
    (inside : start < stop → stop ≤ words.length * 32) :
    ∃ positions, (new words start stop >>=
        collect (stop - start + words.length + 1 + extra)) = .ok positions ∧
      positions.Pairwise (· < ·) ∧ ∀ position, position ∈ positions ↔
        start ≤ position ∧ position < stop ∧ isClear words position = true := by
  obtain ⟨events, isOk, rfl, rfl, holds⟩ := new_spec inside
  refine ⟨pendingIn (isClear events.words) start events.stop, ?_, ?_, fun _ => mem_pendingIn⟩
  · rw [isOk, Run.bind_ok, collect_eq holds inside (by omega)]
  · exact List.Pairwise.filter _ (List.pairwise_lt_range' ..)

/-- Two words with one clear bit each, on both sides of their border. -/
theorem yields_clear_positions_border :
    (new [0x7fffffff, 0xfffffffe] 30 34 >>= collect 7) = .ok [31, 32] ∧
      [31, 32].Pairwise (· < ·) := by
  have computed : (new [0x7fffffff, 0xfffffffe] 30 34 >>= collect 7) = .ok [31, 32] := by
    decide +kernel
  obtain ⟨positions, isOk, sorted, _⟩ :=
    yields_clear_positions [0x7fffffff, 0xfffffffe] 30 34 0 (by decide)
  cases computed.symm.trans isOk
  exact ⟨computed, sorted⟩

end PendingEvents

end Hibana
