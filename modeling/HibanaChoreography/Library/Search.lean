/-
This file is about searches over positions with a test that may fail.

A halving search finds the end of the positions that pass a monotone test; a
scan behind it finds the first position of interest. The search carries fuel,
and the rule below says that the length of the range is enough. Where a search
runs over some of the items of a list, the cuts of the whole list and of these
items are compared. A search that passes an item in every round has no more rounds
than items.
-/

import HibanaChoreography.Library.Run

namespace Outcome

open List

/-- The first position of a range that fails a test, by halving the range. -/
def lowerBound (test : Nat → Run Bool) : Nat → Nat → Nat → Run Nat
  | 0, low, high => if low < high then .error .fuel else .ok low
  | fuel + 1, low, high =>
    if low < high then do
      if ← test (low + (high - low) / 2) then
        lowerBound test fuel (low + (high - low) / 2 + 1) high
      else lowerBound test fuel low (low + (high - low) / 2)
    else .ok low

/-- A halving search returns, and splits the range into the positions that pass a monotone test
and those that fail it. -/
theorem lowerBound_spec {test : Nat → Run Bool} {passes : Nat → Bool} {fuel low high : Nat}
    (enough : high - low ≤ fuel) (ordered : low ≤ high)
    (answers : ∀ position, low ≤ position → position < high → test position = .ok (passes position))
    (monotone : ∀ first second, low ≤ first → first ≤ second → second < high →
      passes second = true → passes first = true) :
    ∃ bound, lowerBound test fuel low high = .ok bound ∧ low ≤ bound ∧ bound ≤ high ∧
      (∀ position, low ≤ position → position < bound → passes position = true) ∧
      ∀ position, bound ≤ position → position < high → passes position = false := by
  induction fuel generalizing low high with
  | zero =>
    refine ⟨low, ?_, Nat.le_refl _, ordered, ?_, ?_⟩
    · rw [lowerBound, if_neg (by omega)]
    · intro position fromLow below
      omega
    · intro position fromLow below
      omega
  | succ fuel hyp =>
    rw [lowerBound]
    split
    · rename_i isOpen
      have middleBound : low + (high - low) / 2 < high := by omega
      rw [answers _ (Nat.le_add_right _ _) middleBound, Run.bind_ok]
      split
      · rename_i isPassed
        obtain ⟨bound, isBound, lower, upper, passed, failed⟩ := hyp
          (show high - (low + (high - low) / 2 + 1) ≤ fuel by omega) (by omega)
          (fun position lower upper => answers position (by omega) upper)
          fun first second lower le upper => monotone first second (by omega) le upper
        refine ⟨bound, isBound, by omega, upper, ?_, failed⟩
        intro position fromLow below
        rcases Nat.lt_or_ge (low + (high - low) / 2) position with behind | before
        · exact passed position behind below
        · exact monotone position _ fromLow before middleBound isPassed
      · rename_i isFailed
        obtain ⟨bound, isBound, lower, upper, passed, failed⟩ := hyp
          (show low + (high - low) / 2 - low ≤ fuel by omega) (Nat.le_add_right _ _)
          (fun position lower upper => answers position lower (by omega))
          fun first second lower le upper => monotone first second lower le (by omega)
        refine ⟨bound, isBound, lower, by omega, passed, ?_⟩
        intro position fromBound below
        rcases Nat.lt_or_ge position (low + (high - low) / 2) with before | behind
        · exact failed position fromBound before
        · by_contra isPassed
          exact isFailed (monotone _ position (Nat.le_add_right _ _) behind below
            (Bool.not_eq_false _ ▸ isPassed))
    · rename_i isClosed
      refine ⟨low, rfl, Nat.le_refl _, ordered, ?_, ?_⟩
      · intro position fromLow below
        omega
      · intro position fromLow below
        omega

/-- A scan from a position on passes the positions in front of the first one that fails. -/
theorem mem_takeWhile_range' {test : Nat → Bool} {low count position : Nat} :
    position ∈ (List.range' low count).takeWhile test ↔ low ≤ position ∧ position < low + count ∧
      ∀ earlier, low ≤ earlier → earlier ≤ position → test earlier = true := by
  induction count generalizing low with
  | zero =>
    rw [range'_zero, takeWhile_nil]
    exact iff_of_false not_mem_nil fun inside => by omega
  | succ count hyp =>
    rw [range'_succ, takeWhile_cons]
    split
    · rename_i passes
      rw [mem_cons, hyp]
      constructor
      · rintro (rfl | ⟨lower, upper, all⟩)
        · refine ⟨Nat.le_refl _, by omega, fun earlier isLower isUpper => ?_⟩
          rwa [Nat.le_antisymm isUpper isLower]
        · refine ⟨by omega, by omega, fun earlier isLower isUpper => ?_⟩
          rcases Nat.eq_or_lt_of_le isLower with rfl | behind
          · exact passes
          · exact all earlier behind isUpper
      · rintro ⟨lower, upper, all⟩
        rcases Nat.eq_or_lt_of_le lower with rfl | behind
        · exact .inl rfl
        · exact .inr ⟨behind, by omega, fun earlier isLower => all earlier (by omega)⟩
    · rename_i fails
      exact iff_of_false not_mem_nil fun inside =>
        fails (inside.2.2 low (Nat.le_refl _) inside.1)

/-! ### Cuts of a list -/

variable {α : Type} {item : α}

/-- Where a list is cut inside an append, it is cut in the first part or in the second. -/
theorem append_eq_append_cons {first second before after : List α}
    (same : first ++ second = before ++ item :: after) :
    (∃ rest, first = before ++ item :: rest) ∨
      ∃ skipped, before = first ++ skipped ∧ second = skipped ++ item :: after := by
  rcases append_eq_append_iff.mp same with ⟨skipped, isBefore, isSecond⟩ | ⟨cut, isFirst, isCut⟩
  · exact .inr ⟨skipped, isBefore, isSecond⟩
  · cases cut with
    | nil =>
      rw [append_nil] at isFirst
      exact .inr ⟨[], by rw [isFirst, append_nil], by rw [nil_append]; exact isCut.symm⟩
    | cons head rest =>
      obtain ⟨rfl, _⟩ := List.cons.inj isCut
      exact .inl ⟨rest, isFirst⟩

variable {items : List α}

/-- A list is cut at every item. -/
theorem exists_cut_of_getElem? {index : Nat} (isItem : items[index]? = some item) :
    ∃ before after, items = before ++ item :: after ∧ before.length = index := by
  obtain ⟨inside, rfl⟩ := List.getElem?_eq_some_iff.mp isItem
  refine ⟨items.take index, items.drop (index + 1), ?_,
    length_take_of_le (Nat.le_of_lt inside)⟩
  rw [← drop_eq_getElem_cons inside, take_append_drop]

/-- An item that passes a test behind as many others as pass it below a floor is itself not below
the floor. -/
theorem mem_drop_of_filter {test : α → Bool} {floor : Nat} {before after : List α}
    (isFilter : items.filter test = before ++ item :: after)
    (below : ((items.take floor).filter test).length ≤ before.length) :
    item ∈ items.drop floor := by
  rw [← take_append_drop floor items, filter_append] at isFilter
  rcases append_eq_append_cons isFilter with ⟨rest, inTake⟩ | ⟨skipped, _, inDrop⟩
  · rw [inTake, length_append, length_cons] at below
    omega
  · have mem : item ∈ (items.drop floor).filter test := by
      rw [inDrop]
      exact mem_append_right _ mem_cons_self
    exact (mem_filter.mp mem).1

/-- Fewer items pass a stricter test that fails for one of them: a search that passes an item in
every round has at most as many rounds as items. -/
theorem countP_lt {loose strict : α → Bool}
    (stricter : ∀ item ∈ items, strict item = true → loose item = true) (mem : item ∈ items)
    (passes : loose item = true) (fails : strict item = false) :
    items.countP strict < items.countP loose := by
  obtain ⟨before, after, rfl⟩ := append_of_mem mem
  have inBefore := countP_mono_left fun other isOther =>
    stricter other (mem_append_left (item :: after) isOther)
  have inAfter := countP_mono_left fun other isOther =>
    stricter other (mem_append_right before (mem_cons_of_mem item isOther))
  rw [countP_append, countP_append, countP_cons_of_pos passes,
    countP_cons_of_neg (ne_true_of_eq_false fails)]
  omega

end Outcome
