/-
This file is about sets of positions kept as the bits of machine words.

A position names a word by its quotient and a bit of that word by its remainder.
The lemmas say how setting and clearing one bit changes the set, and that the
lowest set bit of a word is the first position of the set in that word. A search
from a position masks the bits of its first word in front of the position and then
takes word after word; what it has in hand shows all positions of the word that it
is in, and no position in front of that word is in the set.
-/

import Mathlib.Data.BitVec
import Mathlib.Tactic.Common

namespace BitWords

variable {width : Nat}

/-- The position is in the set. Positions behind the last word are not. -/
def Holds (words : List (BitVec width)) (position : Nat) : Prop :=
  (words[position / width]?.getD (BitVec.ofNat width 0)).getLsbD (position % width) = true

/-- Add a position. -/
def set (words : List (BitVec width)) (position : Nat) : List (BitVec width) :=
  words.modify (position / width) (· ||| BitVec.twoPow width (position % width))

/-- Remove a position. -/
def clear (words : List (BitVec width)) (position : Nat) : List (BitVec width) :=
  words.modify (position / width) (· &&& ~~~ BitVec.twoPow width (position % width))

@[simp] theorem length_set (words : List (BitVec width)) (position : Nat) :
    (set words position).length = words.length :=
  List.length_modify _ _ _

@[simp] theorem length_clear (words : List (BitVec width)) (position : Nat) :
    (clear words position).length = words.length :=
  List.length_modify _ _ _

variable {words : List (BitVec width)} {position : Nat}

theorem holds_set_self (nonempty : 0 < width) (inside : position / width < words.length) :
    Holds (set words position) position := by
  have small := Nat.mod_lt position nonempty
  simp [Holds, set, List.getElem?_eq_getElem inside, small]

/-- Changing one word keeps a position unless the change takes its bit away. -/
theorem Holds.modify (holds : Holds words position) (index : Nat)
    (change : BitVec width → BitVec width)
    (kept : index = position / width → ∀ word : BitVec width,
      word.getLsbD (position % width) = true → (change word).getLsbD (position % width) = true) :
    Holds (words.modify index change) position := by
  unfold Holds at holds ⊢
  rw [List.getElem?_modify]
  cases isWord : words[position / width]? with
  | none => simp [isWord] at holds
  | some word =>
    rw [isWord, Option.getD_some] at holds
    by_cases same : index = position / width
    · simpa [same] using kept same word holds
    · simpa [same] using holds

theorem Holds.set (holds : Holds words position) (added : Nat) :
    Holds (set words added) position := by
  refine holds.modify _ _ fun _ word isSet => ?_
  rw [BitVec.getLsbD_or, isSet, Bool.true_or]

/-- Clearing a position removes no other. -/
theorem Holds.clear {position removed : Nat} (holds : Holds words position)
    (ne : position ≠ removed) (nonempty : 0 < width) : Holds (clear words removed) position := by
  refine holds.modify _ _ fun sameWord word isSet => ?_
  -- In the same word the two positions differ by their bits.
  have otherBit : position % width ≠ removed % width := by
    intro sameBit
    apply ne
    rw [← Nat.div_add_mod position width, ← Nat.div_add_mod removed width, sameWord, sameBit]
  have small := Nat.mod_lt position nonempty
  simp [isSet, otherBit, small]

variable {word : BitVec width}

/-- Setting a bit that is set changes nothing. -/
theorem or_twoPow_of_and {bit : Nat}
    (isSet : word &&& BitVec.twoPow width bit ≠ (BitVec.ofNat width 0)) :
    word ||| BitVec.twoPow width bit = word := by
  rw [BitVec.and_twoPow] at isSet
  have bitSet : word.getLsbD bit = true := by
    by_contra notSet
    rw [if_neg notSet] at isSet
    exact isSet rfl
  refine BitVec.eq_of_getLsbD_eq fun index inside => ?_
  rw [BitVec.getLsbD_or, BitVec.getLsbD_twoPow]
  by_cases same : bit = index
  · subst same
    rw [bitSet, Bool.true_or]
  · simp [same]

/-- The bits of a word from a bit on. -/
def fromBit (word : BitVec width) (start : Nat) : BitVec width :=
  word &&& (BitVec.allOnes width <<< start)

theorem getLsbD_fromBit (word : BitVec width) (start bit : Nat) :
    (fromBit word start).getLsbD bit = (word.getLsbD bit && decide (start ≤ bit)) := by
  unfold fromBit
  by_cases inside : bit < width
  · by_cases behind : start ≤ bit
    · simp [inside, behind, Nat.not_lt.mpr behind]
    · simp [inside, behind, Nat.lt_of_not_le behind]
  · simp [BitVec.getLsbD_of_ge word bit (Nat.le_of_not_lt inside)]

/-- Below its lowest bit and with it, a word is a power of two. -/
theorem toNat_mod_two_pow_ctz {word : BitVec width} (nonzero : word ≠ (BitVec.ofNat width 0)) :
    word.toNat % 2 ^ (word.ctz.toNat + 1) = 2 ^ word.ctz.toNat := by
  refine Nat.eq_of_testBit_eq fun bit => ?_
  rw [Nat.testBit_mod_two_pow, Nat.testBit_two_pow]
  rcases Nat.lt_trichotomy bit word.ctz.toNat with below | rfl | behind
  · have notSet : word.toNat.testBit bit = false := BitVec.getLsbD_false_of_lt_ctz below
    rw [notSet, Bool.and_false, decide_eq_false (by omega)]
  · have isSet : word.toNat.testBit word.ctz.toNat = true :=
      BitVec.getLsbD_true_ctz_of_ne_zero nonzero
    rw [isSet, Bool.and_true, decide_eq_true (Nat.lt_succ_self _), decide_eq_true rfl]
  · rw [decide_eq_false (by omega), decide_eq_false (by omega), Bool.false_and]

/-- Taking one from a word and keeping the common bits clears the lowest bit. -/
theorem getLsbD_and_sub_one {word : BitVec width} (nonzero : word ≠ (BitVec.ofNat width 0))
    (bit : Nat) : (word &&& (word - 1)).getLsbD bit =
      (word.getLsbD bit && decide (bit ≠ word.ctz.toNat)) := by
  obtain ⟨high, isWord⟩ : ∃ high,
      word.toNat = 2 ^ (word.ctz.toNat + 1) * high + 2 ^ word.ctz.toNat :=
    ⟨_, (toNat_mod_two_pow_ctz nonzero ▸ Nat.div_add_mod word.toNat _).symm⟩
  have pos : 0 < 2 ^ word.ctz.toNat := Nat.two_pow_pos _
  have doubled := Nat.pow_succ 2 word.ctz.toNat
  have isPred : (word - 1).toNat = 2 ^ (word.ctz.toNat + 1) * high + (2 ^ word.ctz.toNat - 1) := by
    have bound := word.isLt
    have isOne : (1 : BitVec width).toNat = 1 := Nat.mod_eq_of_lt (show 1 < 2 ^ width by omega)
    rw [BitVec.toNat_sub_of_le (by rw [BitVec.le_def, isOne]; omega), isOne]
    omega
  rw [BitVec.getLsbD_and, BitVec.getLsbD, BitVec.getLsbD, isPred, isWord,
    Nat.testBit_two_pow_mul_add _ (by omega), Nat.testBit_two_pow_mul_add _ (by omega)]
  split_ifs with below
  · rw [Nat.testBit_two_pow, Nat.testBit_two_pow_sub_one, ← Bool.decide_and, ← Bool.decide_and]
    exact decide_eq_decide.mpr (by omega)
  · rw [Bool.and_self, decide_eq_true (by omega), Bool.and_true]

theorem holds_iff_getLsbD {index bit : Nat} (isWord : words[index]? = some word)
    (inside : bit < width) : Holds words (index * width + bit) ↔ word.getLsbD bit = true := by
  have quotient : (index * width + bit) / width = index := by
    rw [Nat.mul_comm, Nat.mul_add_div (Nat.zero_lt_of_lt inside), Nat.div_eq_of_lt inside,
      Nat.add_zero]
  have remainder : (index * width + bit) % width = bit := by
    rw [Nat.mul_comm, Nat.mul_add_mod, Nat.mod_eq_of_lt inside]
  rw [Holds, quotient, remainder, isWord, Option.getD_some]

/-! ### Searching for the next position -/

/-- A search from `first` has passed the words in front of `index`, and `available` holds what
is left of this word. -/
structure Shows (words : List (BitVec width)) (first index : Nat) (available : BitVec width) :
    Prop where
  passed : ∀ position, first ≤ position → position < index * width → ¬ Holds words position
  shown : ∀ bit, bit < width → first ≤ index * width + bit →
    Holds words (index * width + bit) → available.getLsbD bit = true
  behind : ∀ bit, available.getLsbD bit = true → first ≤ index * width + bit

namespace Shows

variable {words : List (BitVec width)} {first index : Nat} {available : BitVec width}

/-- The search starts with the masked word of its first position. -/
theorem start (isWord : words[first / width]? = some word) :
    Shows words first (first / width) (fromBit word (first % width)) where
  passed := by
    intro position low high
    exact absurd (Nat.lt_of_lt_of_le high (Nat.div_mul_le_self _ _)) (Nat.not_lt.mpr low)
  shown := by
    intro bit inside low holds
    rw [getLsbD_fromBit, (holds_iff_getLsbD isWord inside).mp holds, Bool.true_and,
      decide_eq_true_eq]
    have split := Nat.div_add_mod' first width
    omega
  behind := by
    intro bit isSet
    rw [getLsbD_fromBit, Bool.and_eq_true, decide_eq_true_eq] at isSet
    have split := Nat.div_add_mod' first width
    omega

/-- The lowest bit in hand is the first position of the set. -/
theorem below_lowest (shows_ : Shows words first index available)
    (nonzero : available ≠ (BitVec.ofNat width 0)) (low : first ≤ position)
    (high : position < index * width + available.ctz.toNat) : ¬ Holds words position := by
  have inWord := BitVec.lt_of_getLsbD (BitVec.getLsbD_true_ctz_of_ne_zero nonzero)
  intro holds
  rcases Nat.lt_or_ge position (index * width) with inFront | inside
  · exact shows_.passed position low inFront holds
  · obtain ⟨bit, rfl⟩ := Nat.exists_eq_add_of_le inside
    have below : bit < available.ctz.toNat := Nat.lt_of_add_lt_add_left high
    have isShown := shows_.shown bit (below.trans inWord) low holds
    rw [BitVec.getLsbD_false_of_lt_ctz below] at isShown
    cases isShown

theorem first_le_lowest (shows_ : Shows words first index available)
    (nonzero : available ≠ (BitVec.ofNat width 0)) : first ≤ index * width + available.ctz.toNat :=
  shows_.behind _ (BitVec.getLsbD_true_ctz_of_ne_zero nonzero)

/-- A word without bits in hand is passed. -/
theorem below_next (shows_ : Shows words first index (BitVec.ofNat width 0))
    (low : first ≤ position) (high : position < (index + 1) * width) : ¬ Holds words position := by
  intro holds
  rcases Nat.lt_or_ge position (index * width) with inFront | inside
  · exact shows_.passed position low inFront holds
  · obtain ⟨bit, rfl⟩ := Nat.exists_eq_add_of_le inside
    rw [Nat.succ_mul] at high
    have isShown := shows_.shown bit (Nat.lt_of_add_lt_add_left high) low holds
    rw [BitVec.getLsbD_zero] at isShown
    cases isShown

/-- Then the search takes the next word. -/
theorem next (shows_ : Shows words first index (BitVec.ofNat width 0))
    (isWord : words[index + 1]? = some word) (inFront : first ≤ (index + 1) * width) :
    Shows words first (index + 1) word where
  passed := fun _ low high => shows_.below_next low high
  shown := fun _ inside _ holds => (holds_iff_getLsbD isWord inside).mp holds
  behind := fun _ _ => Nat.le_add_right_of_le inFront

end Shows

end BitWords
