/-
This file proves that the compiled dependency closure agrees with the reference.

Dependencies point to earlier events, so when an event is visited its mark is final,
and what it adds to the marks in front of it is a function of its actor alone. The
reference adds it to every earlier event; the compiled closure adds it to the
predecessors from the floor on that are not marked on both sides, where it would
change nothing. Both closures therefore carry the same marks from the floor on
after every event. The compiled closure asks a part of the questions of the
reference, so it returns whenever the reference does.
-/

import HibanaChoreography.Ownership.Reentry

namespace Hibana

open Outcome List

namespace Reentry

/-! ### Marks that grow -/

/-- Add bits to every mark. -/
def grow (gain : Nat → UInt8) (needed : List UInt8) : List UInt8 :=
  needed.mapIdx fun event mark => mark ||| gain event

/-- Bits for some of the events. -/
def restrict (holds : Nat → Prop) [DecidablePred holds] (gain : Nat → UInt8) : Nat → UInt8 :=
  fun event => if holds event then gain event else 0

@[simp] theorem length_grow (gain : Nat → UInt8) (needed : List UInt8) :
    (grow gain needed).length = needed.length :=
  length_mapIdx

theorem getElem?_grow (gain : Nat → UInt8) (needed : List UInt8) (event : Nat) :
    (grow gain needed)[event]? = needed[event]?.map (· ||| gain event) :=
  getElem?_mapIdx

variable {needed : List UInt8} {event : Nat} {gain : Nat → UInt8}

/-- What is added matters only where it changes a mark. -/
theorem grow_congr {first second : Nat → UInt8}
    (same : ∀ event mark, needed[event]? = some mark →
      mark ||| first event = mark ||| second event) :
    grow first needed = grow second needed := by
  apply ext_getElem?
  intro event
  rw [getElem?_grow, getElem?_grow]
  cases isMark : needed[event]? with
  | none => rfl
  | some mark => exact congrArg some (same event mark isMark)

theorem grow_grow (first second : Nat → UInt8) (needed : List UInt8) :
    grow second (grow first needed) = grow (fun event => first event ||| second event) needed := by
  apply ext_getElem?
  intro event
  simp only [getElem?_grow, Option.map_map]
  cases needed[event]? with
  | none => rfl
  | some mark => exact congrArg some (UInt8.or_assoc _ _ _)

theorem grow_zero (needed : List UInt8) : grow (fun _ => 0) needed = needed := by
  apply ext_getElem?
  intro event
  rw [getElem?_grow]
  cases needed[event]? with
  | none => rfl
  | some mark => exact congrArg some UInt8.or_zero

section Restrict

variable {holds first second both : Nat → Prop} [DecidablePred holds] [DecidablePred first]
  [DecidablePred second] [DecidablePred both]

theorem restrict_eq_zero (nothing : ∀ event, holds event → gain event = 0) :
    restrict holds gain = fun _ => 0 := by
  funext event
  unfold restrict
  split
  · rename_i isHeld
    exact nothing event isHeld
  · rfl

/-- The same bits for some events, then for others. -/
theorem grow_restrict (isBoth : ∀ event, first event ∨ second event ↔ both event) :
    grow (restrict second gain) (grow (restrict first gain) needed) =
      grow (restrict both gain) needed := by
  rw [grow_grow]
  refine congrArg (grow · needed) (funext fun event => ?_)
  simp only [restrict, ← isBoth]
  by_cases isFirst : first event <;> by_cases isSecond : second event <;> simp [isFirst, isSecond]

theorem full_restrict (full : ∀ event, 3 ||| gain event = 3) (event : Nat) :
    3 ||| restrict holds gain event = 3 := by
  unfold restrict
  split
  · exact full event
  · rfl

end Restrict

theorem markAt_ok {mark : UInt8} (isMark : needed[event]? = some mark) :
    markAt needed event = .ok mark := by
  rw [markAt, isMark]

theorem markAt_eq_ok {mark : UInt8} (isOk : markAt needed event = .ok mark) :
    needed[event]? = some mark := by
  unfold markAt at isOk
  split at isOk
  · rename_i isMark
    rw [isMark, Except.ok.inj isOk]
  · cases isOk

theorem mark_eq (inside : event < needed.length) (gain : Nat → UInt8) :
    mark needed event (gain event) = .ok (grow (restrict (· = event) gain) needed) := by
  have isMark := getElem?_eq_getElem inside
  rw [mark, markAt_ok isMark, Run.bind_ok]
  refine congrArg Except.ok (ext_getElem? fun other => ?_)
  rw [getElem?_grow, getElem?_set]
  by_cases same : event = other
  · subst same
    simp [restrict, inside]
  · have ne : ¬ other = event := fun back => same back.symm
    cases needed[other]? <;> simp [restrict, same, ne]

/-- A side that is marked is marked already. -/
theorem Side.or_bit (marked : Side) {mark : UInt8} (isMarked : ¬ mark &&& marked.bit = 0) :
    mark ||| marked.bit = mark := by
  have isPower : ∃ index, marked.bit.toBitVec = BitVec.twoPow 8 index := by
    cases marked with
    | sender => exact ⟨0, by decide⟩
    | receiver => exact ⟨1, by decide⟩
  obtain ⟨index, isPower⟩ := isPower
  apply UInt8.toBitVec_inj.mp
  rw [UInt8.toBitVec_or, isPower]
  apply BitWords.or_twoPow_of_and
  rw [← isPower, ← UInt8.toBitVec_and]
  exact fun isZero => isMarked (UInt8.toBitVec_inj.mp isZero)

/-! ### What an actor does in an earlier event -/

section Gain

variable (image : ActorImage) (source : Source) (start : Nat) (path : Context)

/-- The bit of a side that the actor is on, if the event is present. -/
def sideGain (actor : UInt8) (previousSide : Side) (prior : Nat) : UInt8 :=
  match side image prior previousSide path, present source start prior path with
  | .ok previous, .ok true => if previous = actor then previousSide.bit else 0
  | _, _ => 0

/-- The bits of the sides that the actor is on, if the event is present. -/
def eventGain (actor : UInt8) (prior : Nat) : UInt8 :=
  sideGain image source start path actor .sender prior |||
    sideGain image source start path actor .receiver prior

/-- The path answers every question about the sides of the event. -/
def Answered (actor : UInt8) (prior : Nat) : Prop :=
  ∀ previousSide, ∃ previous, side image prior previousSide path = .ok previous ∧
    (previous = actor → ∃ isPresent, present source start prior path = .ok isPresent)

theorem sideGain_eq_zero_or (actor : UInt8) (previousSide : Side) (prior : Nat) :
    sideGain image source start path actor previousSide prior = 0 ∨
      sideGain image source start path actor previousSide prior = previousSide.bit := by
  unfold sideGain
  split
  · split
    · exact .inr rfl
    · exact .inl rfl
  · exact .inl rfl

variable {image source start path} {actor : UInt8} {prior : Nat}

/-- An event with both marks gains nothing. -/
theorem full_or_eventGain (prior : Nat) :
    3 ||| eventGain image source start path actor prior = 3 := by
  unfold eventGain
  rcases sideGain_eq_zero_or image source start path actor .sender prior with
      isSender | isSender <;>
    rcases sideGain_eq_zero_or image source start path actor .receiver prior with
      isReceiver | isReceiver <;>
    rw [isSender, isReceiver] <;> rfl

variable {needed : List UInt8}

theorem includeSide_eq (inside : prior < needed.length) {previousSide : Side} {previous : UInt8}
    (isPrevious : side image prior previousSide path = .ok previous)
    (answered : previous = actor → ∃ isPresent, present source start prior path = .ok isPresent) :
    includeSide image source start path actor prior needed previousSide =
      .ok (grow (restrict (· = prior) (sideGain image source start path actor previousSide))
        needed) := by
  rw [includeSide, isPrevious, Run.bind_ok]
  have nothing (isZero : sideGain image source start path actor previousSide prior = 0) :
      grow (restrict (· = prior) (sideGain image source start path actor previousSide)) needed =
        needed := by
    rw [restrict_eq_zero (by rintro _ rfl; exact isZero), grow_zero]
  by_cases same : previous = actor
  · obtain ⟨isPresent, isAnswer⟩ := answered same
    rw [if_pos same, isAnswer, Run.bind_ok]
    cases isPresent with
    | true =>
      rw [← mark_eq inside]
      simp [sideGain, isPrevious, isAnswer, same]
    | false =>
      rw [nothing (by simp [sideGain, isPrevious, isAnswer])]
      rfl
  · rw [if_neg same, nothing]
    · rfl
    · unfold sideGain
      split
      · rename_i found _ isFound _
        rw [isPrevious] at isFound
        rw [← Except.ok.inj isFound, if_neg same]
      · rfl

variable {after : List UInt8}

theorem includeSide_inv {previousSide : Side}
    (isOk : includeSide image source start path actor prior needed previousSide = .ok after) :
    ∃ previous, side image prior previousSide path = .ok previous ∧
      (previous = actor → ∃ isPresent, present source start prior path = .ok isPresent) := by
  obtain ⟨previous, isPrevious, isOk⟩ := Run.of_bind isOk
  refine ⟨previous, isPrevious, fun same => ?_⟩
  rw [if_pos same] at isOk
  obtain ⟨isPresent, isAnswer, _⟩ := Run.of_bind isOk
  exact ⟨isPresent, isAnswer⟩

/-- The bits of the one side, then those of the other. -/
theorem grow_sides : grow (restrict (· = prior) (sideGain image source start path actor .receiver))
      (grow (restrict (· = prior) (sideGain image source start path actor .sender)) needed) =
    grow (restrict (· = prior) (eventGain image source start path actor)) needed := by
  rw [grow_grow]
  refine congrArg (grow · needed) (funext fun event => ?_)
  unfold restrict
  split
  · rfl
  · exact UInt8.or_zero

/-- A reference step over both sides of an earlier event asks about both and adds their bits. -/
theorem includeSides_inv (inside : prior < needed.length)
    (isOk : sides.foldlM (includeSide image source start path actor prior) needed = .ok after) :
    Answered image source start path actor prior ∧
      after = grow (restrict (· = prior) (eventGain image source start path actor)) needed := by
  obtain ⟨middle, isMiddle, isOk⟩ := Run.of_bind isOk
  obtain ⟨last, isLast, isOk⟩ := Run.of_bind isOk
  cases isOk
  obtain ⟨sender, isSender, senderAnswered⟩ := includeSide_inv isMiddle
  obtain ⟨receiver, isReceiver, receiverAnswered⟩ := includeSide_inv isLast
  rw [includeSide_eq inside isSender senderAnswered] at isMiddle
  cases isMiddle
  rw [includeSide_eq (by rwa [length_grow]) isReceiver receiverAnswered] at isLast
  refine ⟨?_, ?_⟩
  · rintro (_ | _)
    · exact ⟨sender, isSender, senderAnswered⟩
    · exact ⟨receiver, isReceiver, receiverAnswered⟩
  · rw [← Except.ok.inj isLast, grow_sides]

/-- A compiled step over both sides of an earlier event adds the same bits. -/
theorem includeUnmarked_eq (inside : prior < needed.length)
    (answered : Answered image source start path actor prior) (previousSide : Side) :
    includeUnmarked image source start path actor prior needed previousSide =
      .ok (grow (restrict (· = prior) (sideGain image source start path actor previousSide))
        needed) := by
  have isMark := getElem?_eq_getElem inside
  obtain ⟨previous, isPrevious, isAnswered⟩ := answered previousSide
  rw [includeUnmarked, markAt_ok isMark, Run.bind_ok]
  split
  · exact includeSide_eq inside isPrevious isAnswered
  · rename_i isMarked
    -- The bit is set already.
    refine congrArg Except.ok ((grow_zero _).symm.trans (grow_congr fun event mark isFound => ?_))
    unfold restrict
    split
    · rename_i same
      subst same
      rw [isMark] at isFound
      cases isFound
      rcases sideGain_eq_zero_or image source start path actor previousSide event with
        isZero | isBit
      · rw [isZero]
      · rw [isBit, UInt8.or_zero, previousSide.or_bit isMarked]
    · rfl

theorem includeUnmarkedSides_eq (inside : prior < needed.length)
    (answered : Answered image source start path actor prior) :
    sides.foldlM (includeUnmarked image source start path actor prior) needed =
      .ok (grow (restrict (· = prior) (eventGain image source start path actor)) needed) := by
  simp only [sides, foldlM_cons, foldlM_nil, includeUnmarked_eq inside answered,
    Run.bind_ok]
  rw [includeUnmarked_eq (by rwa [length_grow]) answered, Run.bind_ok, grow_sides]
  rfl

end Gain

/-! ### The reference closure -/

section Reference

/-- What a side of the event adds to the marks from `lower` on. -/
def dependencyGain (source : Source) (start lower event : Nat) (gain : Nat → UInt8) : Nat → UInt8 :=
  restrict (fun prior => lower ≤ prior ∧ source.before (prior - start) (event - start) = true) gain

variable (image : ActorImage) (source : Source) (start : Nat) (path : Context)

/-- The path answers every question about the predecessors of the event from `lower` on. -/
def PredecessorsAnswered (lower event : Nat) (actor : UInt8) : Prop :=
  ∀ prior, lower ≤ prior → source.before (prior - start) (event - start) = true →
    Answered image source start path actor prior

variable {image source start path} {needed after : List UInt8}

/-- The reference asks about every predecessor in a range and adds what it finds. -/
theorem referenceFold_inv {actor : UInt8} (count : Nat) {lower : Nat}
    (isEnd : lower + count = event) (inside : event ≤ needed.length)
    (isOk : (List.range' lower count).foldlM (fun needed prior =>
        if source.before (prior - start) (event - start) then
          sides.foldlM (includeSide image source start path actor prior) needed
        else return needed)
      needed = .ok after) :
    PredecessorsAnswered image source start path lower event actor ∧ after =
      grow (dependencyGain source start lower event (eventGain image source start path actor))
        needed := by
  induction count generalizing lower needed with
  | zero =>
    cases isOk
    have noPrior : ∀ prior, lower ≤ prior →
        ¬ source.before (prior - start) (event - start) = true := by
      intro prior low ordered
      have inFront := Source.lt_of_before ordered
      omega
    refine ⟨fun prior low ordered => absurd ordered (noPrior prior low), ?_⟩
    rw [dependencyGain, restrict_eq_zero fun prior both => absurd both.2 (noPrior prior both.1),
      grow_zero]
  | succ count hyp =>
    rw [range'_succ, foldlM_cons] at isOk
    obtain ⟨middle, isMiddle, isOk⟩ := Run.of_bind isOk
    -- The first event of the range, then the rest.
    have head : (source.before (lower - start) (event - start) = true →
        Answered image source start path actor lower) ∧ middle = grow (restrict (fun prior =>
          prior = lower ∧ source.before (prior - start) (event - start) = true)
            (eventGain image source start path actor)) needed := by
      split at isMiddle
      · rename_i ordered
        obtain ⟨answered, isGrown⟩ := includeSides_inv (by omega) isMiddle
        refine ⟨fun _ => answered,
          isGrown.trans (congrArg (grow · needed) (funext fun prior => ?_))⟩
        exact if_congr ⟨fun same => ⟨same, same ▸ ordered⟩, And.left⟩ rfl rfl
      · rename_i unordered
        refine ⟨fun ordered => absurd ordered unordered, ?_⟩
        rw [restrict_eq_zero, grow_zero]
        · exact (Except.ok.inj isMiddle).symm
        · rintro prior ⟨rfl, ordered⟩
          exact absurd ordered unordered
    obtain ⟨answered, rfl⟩ := head
    obtain ⟨rest, rfl⟩ := hyp (by omega) (by rwa [length_grow]) isOk
    refine ⟨fun prior low ordered => ?_, grow_restrict fun prior => ?_⟩
    · by_cases first : prior = lower
      · subst first
        exact answered ordered
      · exact rest prior (by omega) ordered
    · rw [← or_and_right]
      exact and_congr_left' (by omega)

variable {event : Nat}

/-- A step of the reference over a side that is not marked does nothing; over a marked side it
asks about the side and all its predecessors. -/
theorem referenceSide_inv {marked : Side} (fromStart : start ≤ event)
    (isOk : referenceSide image source start path event needed marked = .ok after) :
    ∃ mark, needed[event]? = some mark ∧ ((mark &&& marked.bit = 0 ∧ after = needed) ∨
        (¬ mark &&& marked.bit = 0 ∧ ∃ actor, side image event marked path = .ok actor ∧
          PredecessorsAnswered image source start path start event actor ∧
          after = grow (dependencyGain source start start event
            (eventGain image source start path actor)) needed)) := by
  obtain ⟨mark, isMark, isOk⟩ := Run.of_bind isOk
  have isMark := markAt_eq_ok isMark
  refine ⟨mark, isMark, ?_⟩
  split at isOk
  · rename_i notMarked
    exact .inl ⟨notMarked, (Except.ok.inj isOk).symm⟩
  · rename_i isMarked
    obtain ⟨actor, isActor, isOk⟩ := Run.of_bind isOk
    exact .inr ⟨isMarked, actor, isActor, referenceFold_inv (event - start) (by omega)
      (List.getElem?_eq_some_iff.mp isMark).1.le isOk⟩

end Reference

/-! ### The next remaining event -/

variable {bits : List (BitVec 32)} {first limit : Nat}

theorem nextRemainingFuel_spec (sized : limit ≤ bits.length) (below : first ≤ limit) (fuel : Nat)
    {word : Nat} {available : BitVec 32} (enough : bits.length ≤ word + fuel)
    (isOpen : word * 32 < limit) (near : first < (word + 1) * 32)
    (shows_ : BitWords.Shows bits first word available) :
    ∃ next, nextRemainingFuel bits limit fuel word available = .ok next ∧ first ≤ next ∧
      next ≤ limit ∧ ∀ position, first ≤ position → position < next →
        ¬ BitWords.Holds bits position := by
  induction fuel generalizing word available with
  | zero => omega
  | succ fuel hyp =>
    rw [nextRemainingFuel]
    by_cases isZero : available = 0#32
    · subst isZero
      rw [if_neg (not_not.mpr rfl)]
      split
      · exact ⟨limit, rfl, below, le_rfl, fun position low high =>
          shows_.below_next low (by omega)⟩
      · have inside : word + 1 < bits.length := by omega
        have isWord := getElem?_eq_getElem inside
        have nextNear : first < (word + 1 + 1) * 32 :=
          near.trans_le (Nat.mul_le_mul_right 32 (Nat.le_succ _))
        simp only [isWord]
        exact hyp (by omega) (by omega) nextNear (shows_.next isWord (Nat.le_of_lt near))
    · rw [if_pos isZero]
      split
      · rename_i inFront
        exact ⟨_, rfl, shows_.first_le_lowest isZero, Nat.le_of_lt inFront,
          fun position low high => shows_.below_lowest isZero low high⟩
      · exact ⟨limit, rfl, below, le_rfl, fun position low high =>
          shows_.below_lowest isZero low (by omega)⟩

/-- No remaining event lies in front of the next one. -/
theorem nextRemaining_spec (sized : limit ≤ bits.length) (below : first ≤ limit) :
    ∃ next, nextRemaining bits first limit = .ok next ∧ first ≤ next ∧ next ≤ limit ∧
      ∀ position, first ≤ position → position < next → ¬ BitWords.Holds bits position := by
  unfold nextRemaining
  split
  · exact ⟨limit, rfl, below, le_rfl, fun position low high => by omega⟩
  · have inside : first / 32 < bits.length := by omega
    have isWord := getElem?_eq_getElem inside
    simp only [isWord]
    exact nextRemainingFuel_spec sized below _ (by omega) (by omega) (by omega)
      (BitWords.Shows.start isWord)

/-! ### The walk over the predecessors -/

section Walk

variable {image : ActorImage} {source : Source} {start : Nat} {path : Context}

/-- The events that the walk skips are marked on both sides. -/
structure Closure.Skips (closure : Closure) (begin limit : Nat) : Prop where
  sized : limit ≤ closure.needed.length
  words : closure.remaining.length = closure.needed.length
  full : ∀ event mark, begin ≤ event → event < limit → closure.needed[event]? = some mark →
    ¬ BitWords.Holds closure.remaining event → mark = 3

variable {closure : Closure} {begin limit prior lower stop : Nat} {actor : UInt8}

/-- Marks that grow by what an actor does stay full. -/
theorem Closure.Skips.grow (skips : closure.Skips begin limit) {gain : Nat → UInt8}
    (full : ∀ event, 3 ||| gain event = 3) :
    Closure.Skips ⟨Reentry.grow gain closure.needed, closure.remaining⟩ begin limit where
  sized := by
    rw [length_grow]
    exact skips.sized
  words := by
    rw [length_grow]
    exact skips.words
  full := by
    intro event mark low high isMark skipped
    rw [getElem?_grow] at isMark
    obtain ⟨old, isOld, rfl⟩ := Option.map_eq_some_iff.mp isMark
    rw [skips.full event old low high isOld skipped]
    exact full event

/-- An event that is marked on both sides can be skipped. -/
theorem Closure.Skips.clear (skips : closure.Skips begin limit)
    (isFull : closure.needed[prior]? = some 3) :
    Closure.Skips ⟨closure.needed, BitWords.clear closure.remaining prior⟩ begin limit where
  sized := skips.sized
  words := by
    rw [BitWords.length_clear]
    exact skips.words
  full := by
    intro event mark low high isMark skipped
    by_cases same : event = prior
    · subst same
      rw [isFull] at isMark
      exact (Option.some.inj isMark).symm
    · refine skips.full event mark low high isMark fun holds => ?_
      exact skipped (holds.clear same (by decide))

theorem closePrior_eq (skips : closure.Skips begin limit) (inside : prior < limit)
    (answered : Answered image source start path actor prior) :
    ∃ after, closePrior image source start path actor closure prior = .ok after ∧ after.needed =
        grow (restrict (· = prior) (eventGain image source start path actor)) closure.needed ∧
      after.Skips begin limit := by
  have insideNeeded : prior < closure.needed.length := inside.trans_le skips.sized
  have grown := skips.grow (show ∀ event, 3 ||| restrict (· = prior)
    (eventGain image source start path actor) event = 3 from full_restrict full_or_eventGain)
  have isMark := getElem?_eq_getElem (l := grow (restrict (· = prior)
    (eventGain image source start path actor)) closure.needed)
    (by rw [length_grow]; exact insideNeeded)
  rw [closePrior, includeUnmarkedSides_eq insideNeeded answered, Run.bind_ok, markAt_ok isMark,
    Run.bind_ok]
  split
  · rename_i isFull
    rw [isFull] at isMark
    exact ⟨_, rfl, rfl, grown.clear isMark⟩
  · exact ⟨_, rfl, rfl, grown⟩

/-- What is gained in the events of a range. -/
def rangeGain (gain : Nat → UInt8) (lower stop : Nat) : Nat → UInt8 :=
  restrict (fun event => lower ≤ event ∧ event < stop) gain

/-- Leaving out events that are marked on both sides changes nothing. -/
theorem Closure.Skips.grow_rangeGain (skips : closure.Skips begin limit) {gain : Nat → UInt8}
    (full : ∀ event, 3 ||| gain event = 3) {next : Nat} (fromBegin : begin ≤ lower)
    (inFront : lower ≤ next) (inside : stop ≤ limit)
    (skipped : ∀ event, lower ≤ event → event < next → ¬ BitWords.Holds closure.remaining event) :
    Reentry.grow (rangeGain gain next stop) closure.needed =
      Reentry.grow (rangeGain gain lower stop) closure.needed := by
  refine grow_congr fun event mark isMark => ?_
  unfold rangeGain restrict
  by_cases between : lower ≤ event ∧ event < next ∧ event < stop
  · obtain ⟨low, high, below⟩ := between
    rw [if_neg (by omega), if_pos ⟨low, below⟩, UInt8.or_zero,
      skips.full event mark (by omega) (by omega) isMark (skipped event low high), full]
  · rw [if_congr (show next ≤ event ∧ event < stop ↔ lower ≤ event ∧ event < stop by omega) rfl rfl]

/-- The walk over the remaining events of a range adds what the actor does in the range. -/
theorem closeRangeFuel_eq (inside : stop ≤ limit) (fuel : Nat) (skips : closure.Skips begin limit)
    (fromBegin : begin ≤ prior) (enough : stop - prior < fuel)
    (answered : ∀ event, prior ≤ event → event < stop →
      Answered image source start path actor event) :
    ∃ after, closeRangeFuel image source start path limit actor stop fuel prior closure =
        .ok after ∧
      after.needed =
        grow (rangeGain (eventGain image source start path actor) prior stop) closure.needed ∧
      after.Skips begin limit := by
  induction fuel generalizing prior closure with
  | zero => omega
  | succ fuel hyp =>
    rw [closeRangeFuel]
    split
    · rename_i isInside
      obtain ⟨middle, isMiddle, isGrown, middleSkips⟩ := closePrior_eq skips
        (isInside.trans_le inside) (answered prior le_rfl isInside)
      have sized : limit ≤ middle.remaining.length := by
        rw [middleSkips.words]
        exact middleSkips.sized
      obtain ⟨next, isNext, fromNext, _, skipped⟩ :=
        nextRemaining_spec sized (Nat.succ_le_of_lt (isInside.trans_le inside))
      obtain ⟨after, isAfter, afterGrown, afterSkips⟩ := hyp middleSkips
        (fromBegin.trans ((Nat.le_succ _).trans fromNext)) (by omega)
        fun event low high => answered event (by omega) high
      refine ⟨after, ?_, ?_, afterSkips⟩
      · rw [isMiddle, Run.bind_ok, isNext, Run.checked_ok, Run.bind_ok, isAfter]
      · rw [afterGrown, middleSkips.grow_rangeGain full_or_eventGain (Nat.le_succ_of_le fromBegin)
          fromNext inside skipped, isGrown]
        exact grow_restrict fun event => by omega
    · rename_i isEmpty
      refine ⟨closure, rfl, ?_, skips⟩
      rw [rangeGain, restrict_eq_zero (by omega), grow_zero]

/-- The walk over the ranges of predecessors adds what the actor does in the predecessors. -/
theorem closeRangesFuel_eq (fromStart : start ≤ begin) (inside : event < limit)
    (answered : PredecessorsAnswered image source start path start event actor) (fuel : Nat)
    (skips : closure.Skips begin limit) (fromBegin : begin ≤ start + lower)
    (enough : event - lower < fuel) :
    ∃ after, closeRangesFuel image source start path limit event actor fuel lower closure =
        .ok after ∧
      after.needed = grow (dependencyGain source start (start + lower) event
        (eventGain image source start path actor)) closure.needed ∧
      after.Skips begin limit := by
  induction fuel generalizing lower closure with
  | zero => omega
  | succ fuel hyp =>
    have isAnswer := source.predecessorRange_answers (event - start) lower
    rw [closeRangesFuel]
    cases isRange : source.predecessorRange (event - start) lower with
    | none =>
      rw [isRange] at isAnswer
      refine ⟨closure, rfl, ?_, skips⟩
      rw [dependencyGain, restrict_eq_zero, grow_zero]
      rintro prior ⟨low, ordered⟩
      rw [isAnswer (prior - start) (by omega)] at ordered
      cases ordered
    | some range =>
      obtain ⟨first, stop⟩ := range
      rw [isRange] at isAnswer
      obtain ⟨fromLower, nonempty, inFront, unordered, ordered⟩ := isAnswer
      have sized : limit ≤ closure.remaining.length := by
        rw [skips.words]
        exact skips.sized
      obtain ⟨next, isNext, fromNext, _, skipped⟩ :=
        nextRemaining_spec sized (show start + first ≤ limit by omega)
      obtain ⟨middle, isMiddle, isGrown, middleSkips⟩ := closeRangeFuel_eq
        (show start + stop ≤ limit by omega) (event + 1) skips (show begin ≤ next by omega)
        (by omega) fun prior low high =>
          answered prior (by omega) (ordered _ (by omega) (by omega))
      obtain ⟨after, isAfter, afterGrown, afterSkips⟩ := hyp middleSkips
        (show begin ≤ start + stop by omega) (by omega)
      refine ⟨after, ?_, ?_, afterSkips⟩
      · simp only [isNext, Run.checked_ok, Run.bind_ok, isMiddle, isAfter]
      · rw [afterGrown, isGrown, skips.grow_rangeGain full_or_eventGain
          (show begin ≤ start + first by omega) fromNext (by omega) skipped]
        -- The predecessors are those of the next range and those behind it.
        refine grow_restrict fun prior => ⟨?_, fun both => ?_⟩
        · rintro (inRange | ⟨low, isOrdered⟩)
          · exact ⟨by omega, ordered _ (by omega) (by omega)⟩
          · exact ⟨by omega, isOrdered⟩
        · rcases Nat.lt_or_ge prior (start + stop) with inRange | behind
          · refine .inl ⟨Nat.not_lt.mp fun passed => ?_, inRange⟩
            rw [unordered _ (by omega) (by omega)] at both
            cases both.2
          · exact .inr ⟨behind, both.2⟩

end Walk

/-! ### The closures, event by event -/

section Agree

variable {image : ActorImage} {source : Source} {start : Nat} {path : Context}

/-- The two closures carry the same marks in front of the source and from `begin` on. -/
structure Agree (start begin : Nat) (needed reference : List UInt8) : Prop where
  length : needed.length = reference.length
  marks : ∀ event, event < start ∨ begin ≤ event → needed[event]? = reference[event]?

theorem Agree.refl (start begin : Nat) (needed : List UInt8) : Agree start begin needed needed :=
  ⟨rfl, fun _ _ => rfl⟩

variable {begin limit event : Nat} {needed reference after : List UInt8} {closure : Closure}

theorem Agree.grow (agree : Agree start begin needed reference) {first second : Nat → UInt8}
    (same : ∀ event, event < start ∨ begin ≤ event → first event = second event) :
    Agree start begin (Reentry.grow first needed) (Reentry.grow second reference) where
  length := by rw [length_grow, length_grow, agree.length]
  marks := by
    intro event kept
    rw [getElem?_grow, getElem?_grow, agree.marks event kept, same event kept]

theorem closeSide_agrees (fromStart : start ≤ begin) (fromBegin : begin ≤ event)
    (inside : event < limit) (skips : closure.Skips begin limit) {marked : Side}
    (agree : Agree start begin closure.needed reference)
    (isOk : referenceSide image source start path event reference marked = .ok after) :
    ∃ next, closeSide image source start path limit begin event closure marked = .ok next ∧
      Agree start begin next.needed after ∧ next.Skips begin limit := by
  obtain ⟨mark, isMark, cases_⟩ := referenceSide_inv (fromStart.trans fromBegin) isOk
  rw [← agree.marks event (.inr fromBegin)] at isMark
  rw [closeSide, markAt_ok isMark, Run.bind_ok]
  rcases cases_ with ⟨notMarked, rfl⟩ | ⟨isMarked, actor, isActor, answered, rfl⟩
  · rw [if_pos notMarked]
    exact ⟨closure, rfl, agree, skips⟩
  · rw [if_neg isMarked, isActor, Run.bind_ok]
    have isStart : start + (begin - start) = begin := by omega
    obtain ⟨next, isNext, isGrown, nextSkips⟩ := closeRangesFuel_eq fromStart inside answered
      (event + 1) skips (show begin ≤ start + (begin - start) by omega) (by omega)
    refine ⟨next, isNext, ?_, nextSkips⟩
    rw [isGrown, isStart]
    refine agree.grow fun prior kept => if_congr ?_ rfl rfl
    constructor
    · rintro ⟨low, rest⟩
      exact ⟨fromStart.trans low, rest⟩
    · rintro ⟨low, rest⟩
      exact ⟨kept.resolve_left (Nat.not_lt.mpr low), rest⟩

/-- What a marked receive adds to the mark of its own event. -/
def sendGain (event : Nat) (mark : UInt8) : Nat → UInt8 :=
  restrict (· = event) fun _ => if mark &&& Side.receiver.bit = 0 then 0 else Side.sender.bit

theorem markSend_eq {mark : UInt8} (isMark : needed[event]? = some mark) :
    markSend needed event = .ok (grow (sendGain event mark) needed) := by
  rw [markSend, markAt_ok isMark, Run.bind_ok, sendGain]
  split
  · rw [restrict_eq_zero fun _ _ => rfl, grow_zero]
    rfl
  · exact mark_eq (List.getElem?_eq_some_iff.mp isMark).1 fun _ => Side.sender.bit

theorem full_or_sendGain (event : Nat) (mark : UInt8) (other : Nat) :
    3 ||| sendGain event mark other = 3 :=
  full_restrict (fun _ => by split <;> rfl) other

/-- A step of the reference, taken apart. -/
theorem referenceEvent_inv
    (isOk : referenceEvent image source start path needed event = .ok after) :
    ∃ mark middle, needed[event]? = some mark ∧
      referenceSide image source start path event (grow (sendGain event mark) needed) .sender =
        .ok middle ∧
      referenceSide image source start path event middle .receiver = .ok after := by
  obtain ⟨sent, isSent, isOk⟩ := Run.of_bind isOk
  obtain ⟨mark, isMark, _⟩ := Run.of_bind isSent
  have isMark := markAt_eq_ok isMark
  rw [markSend_eq isMark] at isSent
  cases isSent
  obtain ⟨middle, isMiddle, isOk⟩ := Run.of_bind isOk
  obtain ⟨last, isLast, isOk⟩ := Run.of_bind isOk
  cases isOk
  exact ⟨mark, middle, isMark, isMiddle, isLast⟩

theorem closeEvent_agrees (fromStart : start ≤ begin) (fromBegin : begin ≤ event)
    (inside : event < limit) (skips : closure.Skips begin limit)
    (agree : Agree start begin closure.needed reference)
    (isOk : referenceEvent image source start path reference event = .ok after) :
    ∃ next, closeEvent image source start path limit begin closure event = .ok next ∧
      Agree start begin next.needed after ∧ next.Skips begin limit := by
  obtain ⟨mark, middle, isMark, isMiddle, isLast⟩ := referenceEvent_inv isOk
  rw [← agree.marks event (.inr fromBegin)] at isMark
  obtain ⟨first, isFirst, firstAgree, firstSkips⟩ := closeSide_agrees fromStart fromBegin inside
    (skips.grow (full_or_sendGain event mark)) (agree.grow fun _ _ => rfl) isMiddle
  obtain ⟨next, isNext, nextAgree, nextSkips⟩ :=
    closeSide_agrees fromStart fromBegin inside firstSkips firstAgree isLast
  refine ⟨next, ?_, nextAgree, nextSkips⟩
  rw [closeEvent, markSend_eq isMark, Run.bind_ok]
  simp only [sides, foldlM_cons, foldlM_nil, isFirst, isNext, Run.bind_ok]
  rfl

/-- The compiled closure follows the reference over the events from `begin` to the limit. -/
theorem closeEvents_agree (fromStart : start ≤ begin) (events : List Nat)
    (bounds : ∀ event ∈ events, begin ≤ event ∧ event < limit) (skips : closure.Skips begin limit)
    (agree : Agree start begin closure.needed reference)
    (isOk : events.foldlM (referenceEvent image source start path) reference = .ok after) :
    ∃ next, events.foldlM (closeEvent image source start path limit begin) closure = .ok next ∧
      Agree start begin next.needed after := by
  induction events generalizing closure reference with
  | nil =>
    cases isOk
    exact ⟨closure, rfl, agree⟩
  | cons event events hyp =>
    rw [foldlM_cons] at isOk
    obtain ⟨middle, isMiddle, isOk⟩ := Run.of_bind isOk
    obtain ⟨fromBegin, inside⟩ := bounds event mem_cons_self
    obtain ⟨first, isFirst, firstAgree, firstSkips⟩ :=
      closeEvent_agrees fromStart fromBegin inside skips agree isMiddle
    obtain ⟨next, isNext, nextAgree⟩ := hyp
      (fun other mem => bounds other (mem_cons_of_mem _ mem)) firstSkips firstAgree isOk
    exact ⟨next, by rw [foldlM_cons, isFirst, Run.bind_ok, isNext], nextAgree⟩

/-! ### Events that the compiled closure leaves out -/

theorem referenceSide_frame {marked : Side} (fromStart : start ≤ event)
    (isOk : referenceSide image source start path event needed marked = .ok after) :
    Agree start event after needed := by
  obtain ⟨mark, _, ⟨_, rfl⟩ | ⟨_, actor, _, _, rfl⟩⟩ := referenceSide_inv fromStart isOk
  · exact Agree.refl start event _
  · have grown : Agree start event
        (grow (dependencyGain source start start event (eventGain image source start path actor))
          needed) (grow (fun _ => 0) needed) :=
      (Agree.refl start event needed).grow fun other kept => if_neg fun both => by
        have inFront := Source.lt_of_before both.2
        omega
    rwa [grow_zero] at grown

theorem Agree.trans {first second third : List UInt8} (front : Agree start begin first second)
    (back : Agree start begin second third) : Agree start begin first third :=
  ⟨front.length.trans back.length,
    fun event kept => (front.marks event kept).trans (back.marks event kept)⟩

theorem Agree.mono {later : Nat} {first second : List UInt8}
    (agree : Agree start begin first second) (behind : begin ≤ later) :
    Agree start later first second :=
  ⟨agree.length, fun event kept => agree.marks event (kept.imp_right behind.trans)⟩

/-- A step of the reference changes no mark behind its event. -/
theorem referenceEvent_frame (fromStart : start ≤ event)
    (isOk : referenceEvent image source start path needed event = .ok after) :
    Agree start (event + 1) after needed := by
  obtain ⟨mark, middle, _, isMiddle, isLast⟩ := referenceEvent_inv isOk
  have sent : Agree start (event + 1) (grow (sendGain event mark) needed)
      (grow (fun _ => 0) needed) :=
    (Agree.refl start (event + 1) needed).grow fun other kept => if_neg (by omega)
  rw [grow_zero] at sent
  have sides := (referenceSide_frame fromStart isLast).trans
    (referenceSide_frame fromStart isMiddle)
  exact (sides.mono (Nat.le_succ _)).trans sent

theorem referenceEvents_frame {bound : Nat} (events : List Nat)
    (bounds : ∀ event ∈ events, start ≤ event ∧ event < bound)
    (isOk : events.foldlM (referenceEvent image source start path) needed = .ok after) :
    Agree start bound after needed := by
  induction events generalizing needed with
  | nil =>
    obtain rfl := Except.ok.inj isOk
    exact Agree.refl start bound needed
  | cons event events hyp =>
    rw [foldlM_cons] at isOk
    obtain ⟨middle, isMiddle, isOk⟩ := Run.of_bind isOk
    obtain ⟨fromStart, inFront⟩ := bounds event mem_cons_self
    have rest := hyp
      (fun other mem => bounds other (mem_cons_of_mem _ mem)) isOk
    exact rest.trans ((referenceEvent_frame fromStart isMiddle).mono inFront)

/-- An event without a mark adds nothing. -/
theorem referenceEvent_unmarked (fromStart : start ≤ event) (unmarked : needed[event]? = some 0)
    (isOk : referenceEvent image source start path needed event = .ok after) : after = needed := by
  have idle : ∀ marked result,
      referenceSide image source start path event needed marked = .ok result →
      result = needed := by
    intro marked result isResult
    obtain ⟨mark, isMark, cases_⟩ := referenceSide_inv fromStart isResult
    rw [unmarked] at isMark
    cases isMark
    rcases cases_ with ⟨_, isSame⟩ | ⟨isMarked, _⟩
    · exact isSame
    · exact absurd UInt8.zero_and isMarked
  obtain ⟨mark, middle, isMark, isMiddle, isLast⟩ := referenceEvent_inv isOk
  rw [unmarked] at isMark
  cases isMark
  have noSend : grow (sendGain event 0) needed = needed := by
    rw [sendGain, restrict_eq_zero fun _ _ => if_pos UInt8.zero_and, grow_zero]
  rw [noSend] at isMiddle
  obtain rfl := idle _ _ isMiddle
  exact idle _ _ isLast

theorem referenceEvents_unmarked (events : List Nat)
    (unmarked : ∀ event ∈ events, start ≤ event ∧ needed[event]? = some 0)
    (isOk : events.foldlM (referenceEvent image source start path) needed = .ok after) :
    after = needed := by
  induction events with
  | nil => exact (Except.ok.inj isOk).symm
  | cons event events hyp =>
    rw [foldlM_cons] at isOk
    obtain ⟨middle, isMiddle, isRest⟩ := Run.of_bind isOk
    obtain ⟨fromStart, noMark⟩ := unmarked event mem_cons_self
    rw [referenceEvent_unmarked fromStart noMark isMiddle] at isRest
    exact hyp (fun other mem => unmarked other (mem_cons_of_mem _ mem)) isRest

/-- The limit is behind the last mark from `begin` on. -/
theorem markedLimit_spec (stop : Nat) (inside : stop ≤ needed.length) :
    ∃ limit, markedLimit needed begin stop = .ok limit ∧ limit ≤ stop ∧ min begin stop ≤ limit ∧
      ∀ event, limit ≤ event → event < stop → needed[event]? = some 0 := by
  induction stop with
  | zero =>
    exact ⟨0, rfl, le_rfl, Nat.min_le_right _ _,
      fun event _ high => absurd high (Nat.not_lt_zero _)⟩
  | succ stop hyp =>
    have unchanged : ∃ limit, (Except.ok (stop + 1) : Checked Scope Nat) = .ok limit ∧
        limit ≤ stop + 1 ∧ min begin (stop + 1) ≤ limit ∧
        ∀ event, limit ≤ event → event < stop + 1 → needed[event]? = some 0 :=
      ⟨stop + 1, rfl, le_rfl, Nat.min_le_right _ _,
        fun event low high => absurd low (Nat.not_le.mpr high)⟩
    rw [markedLimit]
    split
    · rename_i behind
      have isMark := getElem?_eq_getElem (show stop < needed.length by omega)
      rw [markAt_ok isMark, Run.bind_ok]
      split
      · rename_i noMark
        rw [noMark] at isMark
        obtain ⟨limit, isLimit, below, fromBegin, unmarked⟩ := hyp (by omega)
        refine ⟨limit, isLimit, Nat.le_succ_of_le below, by omega, ?_⟩
        intro event low high
        rcases Nat.lt_or_ge event stop with inFront | last
        · exact unmarked event low inFront
        · obtain rfl : event = stop := by omega
          exact isMark
      · exact unchanged
    · exact unchanged

/-- The remaining events are all that are not marked on both sides. -/
theorem initialRemaining_fold (events : List Nat) (inside : ∀ event ∈ events, event < needed.length)
    {words : List (BitVec 32)} (sized : words.length = needed.length) :
    ∃ remaining, events.foldlM (fun remaining event => do
          if (← markAt needed event) ≠ 3 then return BitWords.set remaining event
          else return remaining)
        words = (.ok remaining : Checked Scope (List (BitVec 32))) ∧
      remaining.length = needed.length ∧
      (∀ event, BitWords.Holds words event → BitWords.Holds remaining event) ∧
      ∀ event ∈ events, ∀ mark, needed[event]? = some mark →
        ¬ BitWords.Holds remaining event → mark = 3 := by
  induction events generalizing words with
  | nil => exact ⟨words, rfl, sized, fun _ => id, nofun⟩
  | cons event events hyp =>
    have isInside := inside event mem_cons_self
    have isMark := getElem?_eq_getElem isInside
    have rest := fun other mem => inside other (mem_cons_of_mem event mem)
    rw [foldlM_cons, markAt_ok isMark, Run.bind_ok]
    by_cases isFull : needed[event] = 3
    · rw [if_neg (not_not.mpr isFull)]
      obtain ⟨remaining, isOk, length, kept, full⟩ := hyp rest sized
      refine ⟨remaining, isOk, length, kept, forall_mem_cons.mpr ⟨?_, full⟩⟩
      intro mark isFound _
      rw [isMark] at isFound
      rw [← Option.some.inj isFound, isFull]
    · rw [if_pos isFull]
      obtain ⟨remaining, isOk, length, kept, full⟩ :=
        hyp rest ((BitWords.length_set words event).trans sized)
      refine ⟨remaining, isOk, length, fun other holds => kept other (holds.set event),
        forall_mem_cons.mpr ⟨?_, full⟩⟩
      intro mark _ skipped
      exact absurd (kept event (BitWords.holds_set_self (by decide) (by omega))) skipped

/-- A reference closure that succeeds has a mark for every event of its source. -/
theorem inside_of_reference {expected : List UInt8}
    (isReference : referenceCloseDependencies image source start path needed = .ok expected) :
    start + source.eventCount ≤ needed.length := by
  obtain ⟨count, isCount⟩ := Nat.exists_eq_succ_of_ne_zero (Nat.ne_of_gt source.eventCount_pos)
  rw [referenceCloseDependencies, isCount, range'_concat, reverse_append] at isReference
  obtain ⟨middle, isMiddle, _⟩ := Run.of_bind isReference
  obtain ⟨mark, _, isMark, _⟩ := referenceEvent_inv isMiddle
  have inside := (List.getElem?_eq_some_iff.mp isMark).1
  omega

/-- The events of the source from the last to the first, cut at the limit and at `begin`. -/
theorem visits_split {count : Nat} (fromStart : start ≤ begin) (below : limit ≤ start + count)
    (fromBegin : min begin (start + count) ≤ limit) :
    (List.range' start count).reverse = (List.range' limit (start + count - limit)).reverse ++
        ((List.range' begin (limit - begin)).reverse ++
          (List.range' start (min begin (start + count) - start)).reverse) := by
  have isMiddle : List.range' begin (limit - begin) =
      List.range' (min begin (start + count)) (limit - min begin (start + count)) := by
    rcases Nat.le_total begin (start + count) with inFront | behind
    · rw [Nat.min_eq_left inFront]
    · rw [Nat.min_eq_right behind, Nat.sub_eq_zero_of_le below,
        Nat.sub_eq_zero_of_le (below.trans behind)]
      rfl
  have front : start + (min begin (start + count) - start) = min begin (start + count) := by omega
  have middle : start + (min begin (start + count) - start +
      (limit - min begin (start + count))) = limit := by omega
  have parts : count = min begin (start + count) - start +
      (limit - min begin (start + count)) + (start + count - limit) := by omega
  rw [isMiddle, ← reverse_append, ← reverse_append]
  refine congrArg List.reverse ?_
  conv_lhs => rw [parts]
  rw [← range'_append_1, ← range'_append_1, front, middle]

theorem closeDependenciesAfter_of_steps {floor limit : Nat} {remaining : List (BitVec 32)}
    (isLimit : markedLimit needed (max floor start) (start + source.eventCount) = .ok limit)
    (isRemaining : initialRemaining needed
      (List.range' (max floor start) (limit - max floor start)).reverse = .ok remaining)
    (isClosure : (List.range' (max floor start) (limit - max floor start)).reverse.foldlM
      (closeEvent image source start path limit (max floor start)) ⟨needed, remaining⟩ =
        .ok closure) :
    closeDependenciesAfter image source start path floor needed = .ok closure.needed := by
  rw [closeDependenciesAfter, isLimit, Run.bind_ok]
  simp only [isRemaining, isClosure, Run.bind_ok, Run.pure_eq_ok]

/-- Whenever the reference closure succeeds, the compiled closure succeeds and leaves the same
marks from the floor on. -/
theorem closeDependenciesAfter_eq_reference (image : ActorImage) (source : Source)
    (start floor : Nat) (path : Context) (needed expected : List UInt8)
    (isReference : referenceCloseDependencies image source start path needed = .ok expected) :
    ∃ actual, closeDependenciesAfter image source start path floor needed = .ok actual ∧
      actual.length = needed.length ∧
      ∀ event, floor ≤ event → actual[event]? = expected[event]? := by
  have inside := inside_of_reference isReference
  let begin := max floor start
  let stop := start + source.eventCount
  obtain ⟨limit, isLimit, below, fromBegin, unmarked⟩ :
      ∃ limit, markedLimit needed begin stop = .ok limit ∧ limit ≤ stop ∧ min begin stop ≤ limit ∧
        ∀ event, limit ≤ event → event < stop → needed[event]? = some 0 :=
    markedLimit_spec stop inside
  let events := (List.range' begin (limit - begin)).reverse
  have mem_events : ∀ event, event ∈ events ↔ begin ≤ event ∧ event < limit := by
    intro event
    rw [mem_reverse, mem_range'_1]
    omega
  obtain ⟨remaining, isRemaining, words, _, full⟩ := initialRemaining_fold events
    (fun event mem => ((mem_events event).mp mem).2.trans_le (below.trans inside))
    (length_replicate (n := needed.length) (a := 0#32))
  have skips : Closure.Skips ⟨needed, remaining⟩ begin limit :=
    ⟨below.trans inside, words, fun event mark low high isMark skipped =>
      full event ((mem_events event).mpr ⟨low, high⟩) mark isMark skipped⟩
  -- The reference visits the events behind the limit, then those of the compiled closure, then
  -- those in front of the floor.
  have split : (List.range' start source.eventCount).reverse =
      (List.range' limit (stop - limit)).reverse ++ (events ++
        (List.range' start (min begin stop - start)).reverse) :=
    visits_split (Nat.le_max_right _ _) below fromBegin
  rw [referenceCloseDependencies, split, foldlM_append] at isReference
  obtain ⟨first, isFirst, isReference⟩ := Run.of_bind isReference
  rw [foldlM_append] at isReference
  obtain ⟨middle, isMiddle, isLast⟩ := Run.of_bind isReference
  have noMarks : first = needed := by
    refine referenceEvents_unmarked _ (fun event mem => ?_) isFirst
    rw [mem_reverse, mem_range'_1] at mem
    exact ⟨by omega, unmarked event (by omega) (by omega)⟩
  rw [noMarks] at isMiddle
  obtain ⟨closure, isClosure, agree⟩ := closeEvents_agree (Nat.le_max_right _ _) events
    (fun event => (mem_events event).mp) skips (Agree.refl start begin needed) isMiddle
  have behind : Agree start (min begin stop) expected middle := by
    refine referenceEvents_frame _ (fun event mem => ?_) isLast
    rw [mem_reverse, mem_range'_1] at mem
    omega
  refine ⟨closure.needed, ?_, ?_, fun event low => ?_⟩
  · exact closeDependenciesAfter_of_steps isLimit isRemaining isClosure
  · have frame : Agree start limit middle needed := by
      refine referenceEvents_frame events (fun event mem => ?_) isMiddle
      have bounds := (mem_events event).mp mem
      omega
    exact agree.length.trans frame.length
  · have kept : event < start ∨ begin ≤ event := by omega
    rw [agree.marks event kept, behind.marks event (kept.imp_right (Nat.min_le_left _ _).trans)]

/-- Role 0 tells role 1, which tells role 2, which tells role 3. -/
def relay : Source :=
  .seq (.send ⟨⟨0, 0⟩, ⟨0, 1⟩, 0, .wire 0⟩)
    (.seq (.send ⟨⟨0, 1⟩, ⟨0, 2⟩, 1, .wire 0⟩) (.send ⟨⟨0, 2⟩, ⟨0, 3⟩, 2, .wire 0⟩))

/-- The image of the relay: every role acts for itself. -/
def relayImage : ActorImage where
  events := [⟨0, 1⟩, ⟨1, 2⟩, ⟨2, 3⟩]
  choices := []
  eventLen := 3

/-- The last receive needs the whole relay; with floor 1 the first message is left out. -/
theorem relay_closure :
    referenceCloseDependencies relayImage relay 0 (Context.new []) [0, 0, 2] = .ok [3, 3, 3] ∧
      closeDependenciesAfter relayImage relay 0 (Context.new []) 1 [0, 0, 2] = .ok [0, 3, 3] ∧
      ∃ actual, closeDependenciesAfter relayImage relay 0 (Context.new []) 1 [0, 0, 2] =
          .ok actual ∧ actual.length = 3 ∧
        ∀ event, 1 ≤ event → actual[event]? = [3, 3, 3][event]? :=
  ⟨by decide +kernel, by decide +kernel, closeDependenciesAfter_eq_reference relayImage relay 0 1
    (Context.new []) [0, 0, 2] [3, 3, 3] (by decide +kernel)⟩

end Agree

end Reentry

end Hibana
