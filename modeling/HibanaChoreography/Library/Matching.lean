/-
This file is about matchings between two finite sets and how large they can be.

A matching is a set of allowed pairs no two of which share a side. A set of right
members is closed when every left member that one of them may take is matched with
one of them: no alternating path leaves it. When all unmatched right members lie in
a closed set the matching is a largest one, because another matching can exchange
partners inside the set and nothing more. A renaming of the right members that
reuses left members only where that is allowed is a matching of those it reuses.
-/

import Mathlib.Data.Finset.Card
import Mathlib.Data.Finset.Prod

namespace Matching

variable {Right Left : Type} (allows : Right → Left → Prop) (rights : Finset Right)
  (lefts : Finset Left)

/-- A set of allowed pairs no two of which share a side. -/
structure IsMatching (pairs : Finset (Right × Left)) : Prop where
  allowed : ∀ pair ∈ pairs, pair.1 ∈ rights ∧ pair.2 ∈ lefts ∧ allows pair.1 pair.2
  right : Set.InjOn Prod.fst (pairs : Set (Right × Left))
  left : Set.InjOn Prod.snd (pairs : Set (Right × Left))

/-- The size of the largest matchings. -/
structure IsMaximum (size : Nat) : Prop where
  reached : ∃ pairs, IsMatching allows rights lefts pairs ∧ pairs.card = size
  bound : ∀ pairs, IsMatching allows rights lefts pairs → pairs.card ≤ size

/-- Every left member that a member may take is matched with a member. -/
def Closed (pairs : Finset (Right × Left)) (members : Set Right) : Prop :=
  ∀ right ∈ members, ∀ left ∈ lefts, allows right left →
    ∃ partner ∈ members, (partner, left) ∈ pairs

variable {allows rights lefts}

/-- A matching is largest when a closed set has all right members without a partner. -/
theorem IsMatching.isMaximum_of_closed {pairs : Finset (Right × Left)}
    (matching : IsMatching allows rights lefts pairs) {members : Set Right}
    (closed : Closed allows lefts pairs members)
    (unmatched : ∀ right ∈ rights, (∀ left, (right, left) ∉ pairs) → right ∈ members) :
    IsMaximum allows rights lefts pairs.card where
  reached := ⟨pairs, matching, rfl⟩
  bound := by
    intro others other
    -- Inside the closed set a pair is compared by its left side, outside by its right side.
    have compare : ∀ pair ∈ others, ∃ image ∈ pairs,
        (pair.1 ∈ members ∧ image.1 ∈ members ∧ image.2 = pair.2) ∨
          (pair.1 ∉ members ∧ image.1 = pair.1) := by
      intro pair mem
      obtain ⟨inRights, inLefts, isAllowed⟩ := other.allowed pair mem
      by_cases inside : pair.1 ∈ members
      · obtain ⟨partner, isMember, isPair⟩ := closed pair.1 inside pair.2 inLefts isAllowed
        exact ⟨(partner, pair.2), isPair, .inl ⟨inside, isMember, rfl⟩⟩
      · have isMatched : ∃ left, (pair.1, left) ∈ pairs := by
          by_contra none
          push Not at none
          exact inside (unmatched pair.1 inRights none)
        obtain ⟨left, isPair⟩ := isMatched
        exact ⟨(pair.1, left), isPair, .inr ⟨inside, rfl⟩⟩
    choose! image isImage images using compare
    refine Finset.card_le_card_of_injOn image isImage fun first isFirst second isSecond same => ?_
    rcases images first isFirst with ⟨_, firstImage, firstLeft⟩ | ⟨firstOutside, firstRight⟩
    · rcases images second isSecond with ⟨_, _, secondLeft⟩ | ⟨secondOutside, secondRight⟩
      · exact other.left isFirst isSecond (by rw [← firstLeft, ← secondLeft, same])
      · rw [same, secondRight] at firstImage
        exact absurd firstImage secondOutside
    · rcases images second isSecond with ⟨_, secondImage, _⟩ | ⟨_, secondRight⟩
      · rw [← same, firstRight] at secondImage
        exact absurd secondImage firstOutside
      · exact other.right isFirst isSecond (by rw [← firstRight, ← secondRight, same])

variable {rename : Right → Left}

/-- The pairs of a renaming that reuses left members. -/
theorem isMatching_of_renaming [DecidableEq Right] [DecidableEq Left]
    (injective : Set.InjOn rename (rights : Set Right))
    (reuses : ∀ right ∈ rights, rename right ∈ lefts → allows right (rename right)) :
    IsMatching allows rights lefts
      ((rights.filter (rename · ∈ lefts)).image fun right => (right, rename right)) where
  allowed := fun pair mem => by
    obtain ⟨right, isRight, rfl⟩ := Finset.mem_image.mp mem
    obtain ⟨inRights, inLefts⟩ := Finset.mem_filter.mp isRight
    exact ⟨inRights, inLefts, reuses right inRights inLefts⟩
  right := by
    intro first isFirst second isSecond same
    obtain ⟨one, _, rfl⟩ := Finset.mem_image.mp (Finset.mem_coe.mp isFirst)
    obtain ⟨other, _, rfl⟩ := Finset.mem_image.mp (Finset.mem_coe.mp isSecond)
    have sameRight : one = other := same
    rw [sameRight]
  left := by
    intro first isFirst second isSecond same
    obtain ⟨one, isOne, rfl⟩ := Finset.mem_image.mp (Finset.mem_coe.mp isFirst)
    obtain ⟨other, isOther, rfl⟩ := Finset.mem_image.mp (Finset.mem_coe.mp isSecond)
    have sameRight : one = other := injective (Finset.mem_filter.mp isOne).1
      (Finset.mem_filter.mp isOther).1 same
    rw [sameRight]

/-- A renaming needs at least the members that a largest matching cannot save. -/
theorem IsMaximum.le_card_of_renaming [DecidableEq Right] [DecidableEq Left] {size : Nat}
    (maximum : IsMaximum allows rights lefts size)
    (injective : Set.InjOn rename (rights : Set Right))
    (reuses : ∀ right ∈ rights, rename right ∈ lefts → allows right (rename right)) :
    lefts.card + rights.card - size ≤ (lefts ∪ rights.image rename).card := by
  have reused := maximum.bound _ (isMatching_of_renaming injective reuses)
  rw [Finset.card_image_of_injective _ fun _ _ same => (Prod.mk.inj same).1] at reused
  have shared : (lefts ∩ rights.image rename).card ≤ (rights.filter (rename · ∈ lefts)).card := by
    refine (Finset.card_le_card fun left mem => ?_).trans
      (Finset.card_image_le (s := rights.filter (rename · ∈ lefts)) (f := rename))
    obtain ⟨inLefts, inImage⟩ := Finset.mem_inter.mp mem
    obtain ⟨right, inRights, rfl⟩ := Finset.mem_image.mp inImage
    exact Finset.mem_image_of_mem _ (Finset.mem_filter.mpr ⟨inRights, inLefts⟩)
  have counts := Finset.card_union_add_card_inter lefts (rights.image rename)
  rw [Finset.card_image_of_injOn injective] at counts
  omega

end Matching
