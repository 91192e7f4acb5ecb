/-
This file is about the compaction of the blocks of a rendezvous as a whole.

The order that packs best ends no later than the arrangement that is there, since the
blocks in the order of their places are one of the orders tried. So a compaction of
blocks at rest meets no failure, ends below the image frontier, and carries every
block to an aligned place of its own.
-/

import HibanaChoreography.Rendezvous.CompactionMoves

namespace Hibana

open Outcome ByteMemory Packing ResidentSidecar List

namespace Rendezvous

variable {Key Ref : Type} {platform : Platform Key Ref} {rv : Rendezvous}

/-! ### The order that ends first -/

/-- The better one of an order and the best one is one of the two, and it ends first. -/
theorem better_spec (order : List ResidentSidecar) (packed : Option Nat)
    (best : Option (List ResidentSidecar × Nat)) :
    (∀ found stop, better order packed best = some (found, stop) →
      best = some (found, stop) ∨ found = order ∧ packed = some stop) ∧
    (∀ found stop, best = some (found, stop) ∨ found = order ∧ packed = some stop →
      ∃ other least, better order packed best = some (other, least) ∧ least ≤ stop) := by
  cases packed with
  | none =>
    refine ⟨fun found stop isBest => .inl isBest, fun found stop isFound => ?_⟩
    rcases isFound with isBest | ⟨_, isNone⟩
    · exact ⟨found, stop, isBest, Nat.le_refl stop⟩
    · cases isNone
  | some stop =>
    cases best with
    | none =>
      refine ⟨fun found least isFound => ?_, fun found least isFound => ?_⟩
      · cases isFound
        exact .inr ⟨rfl, rfl⟩
      · rcases isFound with isBest | ⟨rfl, isStop⟩
        · cases isBest
        · exact ⟨found, stop, rfl, Nat.le_of_eq (Option.some.inj isStop)⟩
    | some earlier =>
      obtain ⟨before, previous⟩ := earlier
      by_cases isLower : stop < previous
      · have isBetter : better order (some stop) (some (before, previous)) = some (order, stop) :=
          congrArg some (if_pos isLower)
        rw [isBetter]
        refine ⟨fun found least isFound => ?_, fun found least isFound => ⟨order, stop, rfl, ?_⟩⟩
        · cases isFound
          exact .inr ⟨rfl, rfl⟩
        · rcases isFound with isBest | ⟨_, isStop⟩
          · cases isBest
            exact Nat.le_of_lt isLower
          · exact Nat.le_of_eq (Option.some.inj isStop)
      · have isBetter : better order (some stop) (some (before, previous)) =
            some (before, previous) := congrArg some (if_neg isLower)
        rw [isBetter]
        refine ⟨fun found least isFound => .inl isFound, fun found least isFound =>
          ⟨before, previous, rfl, ?_⟩⟩
        rcases isFound with isBest | ⟨_, isStop⟩
        · cases isBest
          exact Nat.le_refl previous
        · rw [← Option.some.inj isStop]
          exact Nat.not_lt.mp isLower

/-- The best order is one of the orders, and no other one ends before it. -/
theorem bestOrder_spec (candidates : List (List ResidentSidecar))
    (best : Option (List ResidentSidecar × Nat))
    (returns : ∀ order ∈ candidates, ∃ result, rv.packedFrontier platform order 0 = .ok result) :
    ∃ result, rv.bestOrder platform candidates best = .ok result ∧
      (∀ order stop, result = some (order, stop) → best = some (order, stop) ∨
        order ∈ candidates ∧ rv.packedFrontier platform order 0 = .ok (some stop)) ∧
      (∀ order stop, best = some (order, stop) ∨
        order ∈ candidates ∧ rv.packedFrontier platform order 0 = .ok (some stop) →
        ∃ found least, result = some (found, least) ∧ least ≤ stop) := by
  induction candidates generalizing best with
  | nil =>
    refine ⟨best, rfl, fun order stop isBest => .inl isBest, fun order stop isBest => ?_⟩
    rcases isBest with isBest | ⟨mem, _⟩
    · exact ⟨order, stop, isBest, Nat.le_refl stop⟩
    · cases mem
  | cons order rest hyp =>
    rw [forall_mem_cons] at returns
    obtain ⟨packed, isPacked⟩ := returns.1
    obtain ⟨fromNext, toNext⟩ := better_spec order packed best
    obtain ⟨result, isOk, fromResult, toResult⟩ := hyp (better order packed best) returns.2
    rw [bestOrder, isPacked, Run.bind_ok]
    refine ⟨result, isOk, fun found stop isResult => ?_, fun found stop isFound => ?_⟩
    · rcases fromResult found stop isResult with isHere | ⟨mem, isThere⟩
      · rcases fromNext found stop isHere with isBest | ⟨rfl, rfl⟩
        · exact .inl isBest
        · exact .inr ⟨mem_cons_self, isPacked⟩
      · exact .inr ⟨mem_cons_of_mem _ mem, isThere⟩
    · rcases isFound with isBest | ⟨mem, isThere⟩
      · obtain ⟨other, least, isOther, below⟩ := toNext found stop (.inl isBest)
        obtain ⟨last, lowest, isLast, lower⟩ := toResult other least (.inl isOther)
        exact ⟨last, lowest, isLast, Nat.le_trans lower below⟩
      · rcases mem_cons.mp mem with rfl | inRest
        · have isSome := Except.ok.inj (isPacked.symm.trans isThere)
          obtain ⟨other, least, isOther, below⟩ := toNext found stop (.inr ⟨rfl, isSome⟩)
          obtain ⟨last, lowest, isLast, lower⟩ := toResult other least (.inl isOther)
          exact ⟨last, lowest, isLast, Nat.le_trans lower below⟩
        · exact toResult found stop (.inr ⟨inRest, isThere⟩)

variable {order : List ResidentSidecar}

theorem perm_pair {first second : ResidentSidecar} (isPerm : order.Perm [first, second]) :
    order = [first, second] ∨ order = [second, first] := by
  obtain ⟨head, rest, rfl⟩ := exists_cons_of_length_pos (isPerm.length_eq.symm ▸ Nat.succ_pos _ :
    0 < order.length)
  rcases mem_cons.mp (isPerm.mem_iff.mp mem_cons_self) with rfl | isSecond
  · exact .inl (congrArg _ (perm_singleton.mp isPerm.cons_inv))
  · obtain rfl := mem_singleton.mp isSecond
    exact .inr (congrArg _ (perm_singleton.mp
      (isPerm.trans (List.Perm.swap head first [])).cons_inv))

/-- Every order of three blocks is tried. -/
theorem mem_orders {first second third : ResidentSidecar} :
    order ∈ orders [first, second, third] ↔ order.Perm [first, second, third] := by
  have isThird : [third, first, second].Perm [first, second, third] :=
    (perm_append_comm : ([third] ++ [first, second]).Perm ([first, second] ++ [third]))
  simp only [orders, mem_cons, not_mem_nil, or_false]
  constructor
  · rintro (rfl | rfl | rfl | rfl | rfl | rfl)
    · exact List.Perm.refl _
    · exact (List.Perm.swap _ _ _).cons _
    · exact List.Perm.swap _ _ _
    · exact (perm_append_comm : ([second, third] ++ [first]).Perm ([first] ++ [second, third]))
    · exact isThird
    · exact reverse_perm [first, second, third]
  · intro isPerm
    obtain ⟨head, rest, rfl⟩ := exists_cons_of_length_pos (isPerm.length_eq.symm ▸ Nat.succ_pos _ :
    0 < order.length)
    have isHead := isPerm.mem_iff.mp mem_cons_self
    simp only [mem_cons, not_mem_nil, or_false] at isHead
    rcases isHead with rfl | rfl | rfl
    · rcases perm_pair isPerm.cons_inv with rfl | rfl <;> simp
    · rcases perm_pair (isPerm.trans (List.Perm.swap head first [third])).cons_inv with
        rfl | rfl <;> simp
    · rcases perm_pair (isPerm.trans isThird.symm).cons_inv with rfl | rfl <;> simp

/-! ### The moves -/

/-- The live blocks at rest: aligned, below the image frontier, and apart from each other. -/
structure Resting (platform : Platform Key Ref) (rv : Rendezvous) : Prop where
  space : InSpace platform.usizeMax rv
  frontier : rv.imageFrontier ≤ rv.slabLen
  low : ∀ resident ∈ rv.liveSidecars platform, isLive resident = true → rv.slabPtr ≤ resident.ptr
  high : ∀ resident ∈ rv.liveSidecars platform, isLive resident = true →
    resident.ptr + resident.bytes ≤ rv.slabPtr + rv.imageFrontier
  aligned : ∀ resident ∈ rv.liveSidecars platform, isLive resident = true →
    resident.ptr % resident.align = 0
  alignable : ∀ resident ∈ rv.liveSidecars platform, isLive resident = true → Alignable resident
  apart : (rv.liveSidecars platform).Pairwise fun first second =>
    first.ptr + first.bytes ≤ second.ptr ∨ second.ptr + second.bytes ≤ first.ptr

variable {resident : ResidentSidecar}

theorem mem_of_filter (isPerm : order.Perm (rv.liveSidecars platform))
    (mem : resident ∈ order.filter isLive) :
    resident ∈ rv.liveSidecars platform ∧ isLive resident = true :=
  ⟨isPerm.mem_iff.mp (mem_filter.mp mem).1, (mem_filter.mp mem).2⟩

namespace Resting

variable (resting : Resting platform rv)

include resting

theorem filled (mem : resident ∈ rv.liveSidecars platform) (live : isLive resident = true) :
    0 < resident.bytes :=
  Nat.lt_of_lt_of_le (isPowerOfTwo_pos (resting.alignable resident mem live).isPower)
    (resting.alignable resident mem live).small

theorem settled (mem : resident ∈ rv.liveSidecars platform) : Settled rv resident := by
  cases live : isLive resident with
  | false => exact .inl (of_decide_eq_false live |> not_not.mp)
  | true =>
    have frontier := resting.frontier
    have high := resting.high resident mem live
    exact .inr ⟨resting.filled mem live, resting.low resident mem live, by
      show resident.ptr + resident.bytes ≤ _
      omega⟩

theorem alignableIn (isPerm : order.Perm (rv.liveSidecars platform)) :
    ∀ resident ∈ order.filter isLive, Alignable resident := fun resident mem =>
  resting.alignable resident (mem_of_filter isPerm mem).1 (mem_of_filter isPerm mem).2

/-- The live blocks in the order of their places. -/
theorem inOrder {sorted : List ResidentSidecar} (isPerm : sorted.Perm (rv.liveSidecars platform))
    (isSorted : sorted.Pairwise fun first second => rv.sortKey first ≤ rv.sortKey second) :
    InOrder bytes ptr rv.slabPtr (rv.slabPtr + rv.imageFrontier) (sorted.filter isLive) := by
  have mem : ∀ resident ∈ sorted.filter isLive,
      resident ∈ rv.liveSidecars platform ∧ isLive resident = true :=
    fun resident => mem_of_filter isPerm
  have apart := (isPerm.pairwise_iff fun {first second} => Or.symm).mpr resting.apart
  refine inOrder_of_sorted ?_ (apart.sublist filter_sublist)
    (fun resident inside => resting.filled (mem resident inside).1 (mem resident inside).2)
    (fun resident inside => ⟨resting.low resident (mem resident inside).1
      (mem resident inside).2, resting.high resident (mem resident inside).1
      (mem resident inside).2⟩) (Nat.le_add_right _ _)
  refine (isSorted.sublist filter_sublist).imp_of_mem fun {first second} inFirst inSecond
    isLe => ?_
  rwa [sortKey, sortKey, if_pos (mem first inFirst).2, if_pos (mem second inSecond).2] at isLe

/-- The best order ends below the image frontier, and no order ends before it. -/
theorem packingOrder :
    ∃ wanted stop, rv.sidecarPackingOrder platform (rv.liveSidecars platform) =
        .ok (some (wanted, stop)) ∧ wanted.Perm (rv.liveSidecars platform) ∧
      stop ≤ rv.imageFrontier ∧
      packEnd bytes align rv.slabPtr (wanted.filter isLive) = rv.slabPtr + stop ∧
      ∀ order : List ResidentSidecar, order.Perm (rv.liveSidecars platform) →
        rv.slabPtr + stop ≤ packEnd bytes align rv.slabPtr (order.filter isLive) := by
  have space := resting.space
  have packed : ∀ order : List ResidentSidecar, order.Perm (rv.liveSidecars platform) →
      rv.packedFrontier platform order 0 = .ok none ∧
          platform.usizeMax < packEnd bytes align rv.slabPtr (order.filter isLive) ∨
        rv.packedFrontier platform order 0 =
          .ok (some (packEnd bytes align rv.slabPtr (order.filter isLive) - rv.slabPtr)) :=
    fun order isPerm => packedFrontier_spec space order 0
      (fun resident mem => resting.settled (isPerm.mem_iff.mp mem))
      (resting.alignableIn isPerm)
  have isOrder : ∀ order, order ∈ orders (rv.liveSidecars platform) ↔
      order.Perm (rv.liveSidecars platform) := fun order => mem_orders
  -- the blocks in the order of their places pack below the frontier
  obtain ⟨sorted, _, sortedPerm, isSorted⟩ := sortResidentSidecars_spec space
    (rv.liveSidecars platform) fun resident => resting.settled
  have sortedEnd : packEnd bytes align rv.slabPtr (sorted.filter isLive) ≤
      rv.slabPtr + rv.imageFrontier :=
    packEnd_le (resting.inOrder sortedPerm isSorted)
      (Alignable.positive (resting.alignableIn sortedPerm)) fun resident mem =>
        resting.aligned resident (mem_of_filter sortedPerm mem).1 (mem_of_filter sortedPerm mem).2
  have sortedPacked := (packed sorted sortedPerm).resolve_left fun overflow => by
    have inSpace := space.fits
    have frontier := resting.frontier
    omega
  have returns : ∀ order ∈ orders (rv.liveSidecars platform),
      ∃ result, rv.packedFrontier platform order 0 = .ok result := fun order mem => by
    rcases packed order ((isOrder order).mp mem) with ⟨isNone, _⟩ | isSome
    · exact ⟨none, isNone⟩
    · exact ⟨_, isSome⟩
  obtain ⟨result, isBest, fromBest, toBest⟩ := bestOrder_spec _ none returns
  obtain ⟨wanted, stop, rfl, below⟩ := toBest sorted _ (.inr ⟨(isOrder sorted).mpr sortedPerm,
    sortedPacked⟩)
  obtain ⟨inOrders, isPacked⟩ := (fromBest wanted stop rfl).resolve_left fun isNone => by
    cases isNone
  have wantedPerm := (isOrder wanted).mp inOrders
  have behind : ∀ order : List ResidentSidecar, order.Perm (rv.liveSidecars platform) →
      rv.slabPtr ≤ packEnd bytes align rv.slabPtr (order.filter isLive) := fun order isPerm =>
    le_packEnd (Alignable.positive (resting.alignableIn isPerm)) rv.slabPtr
  refine ⟨wanted, stop, isBest, wantedPerm, by omega, ?_, fun order isPerm => ?_⟩
  · rcases packed wanted wantedPerm with ⟨isNone, _⟩ | isSome
    · cases isNone.symm.trans isPacked
    · have isStop := Option.some.inj (Except.ok.inj (isSome.symm.trans isPacked))
      have isBehind := behind wanted wantedPerm
      omega
  · have isBehind := behind order isPerm
    rcases packed order isPerm with ⟨_, overflow⟩ | isSome
    · have inSpace := space.fits
      have frontier := resting.frontier
      omega
    · obtain ⟨_, _, isSame, isBelow⟩ :=
        toBest order _ (.inr ⟨(isOrder order).mpr isPerm, isSome⟩)
      have isStop := congrArg Prod.snd (Option.some.inj isSame)
      omega

/-- A compaction carries every live block to an aligned place below the best end. -/
theorem moveLiveSidecars :
    ∃ wanted stop placed idle after,
      rv.sidecarPackingOrder platform (rv.liveSidecars platform) = .ok (some (wanted, stop)) ∧
      rv.moveLiveSidecars platform = .ok (placed ++ idle, stop, after) ∧
      stop ≤ rv.imageFrontier ∧
      (∀ resident ∈ idle, resident.storage = .empty) ∧
      (placed.map shape).Perm (((rv.liveSidecars platform).filter isLive).map shape) ∧
      InOrder bytes ptr rv.slabPtr (rv.slabPtr + stop) placed ∧
      (∀ resident ∈ placed, resident.ptr % resident.align = 0) ∧
      Carried rv.lanes.memory ((rv.liveSidecars platform).filter isLive) after placed := by
  have space := resting.space
  have inSpace := space.fits
  have frontier := resting.frontier
  obtain ⟨wanted, stop, isBest, wantedPerm, below, isEnd, _⟩ := resting.packingOrder
  obtain ⟨sorted, isSortOk, sortedPerm, isSorted⟩ := sortResidentSidecars_spec space
    (rv.liveSidecars platform) fun resident => resting.settled
  have inOrder := resting.inOrder sortedPerm isSorted
  have filled : ∀ resident ∈ sorted.filter isLive, 0 < resident.bytes := fun resident mem =>
    resting.filled (mem_of_filter sortedPerm mem).1 (mem_of_filter sortedPerm mem).2
  have livePerm : ∀ {order : List ResidentSidecar}, order.Perm (rv.liveSidecars platform) →
      ((order.filter isLive).map shape).Perm
        (((rv.liveSidecars platform).filter isLive).map shape) :=
    fun isPerm => (isPerm.filter isLive).map shape
  have distinct : (((sorted.filter isLive).map shape).map Prod.fst).Nodup := by
    have kinds : (((rv.liveSidecars platform).map shape).map Prod.fst).Nodup := by
      show [ResidentSidecarKind.endpointLeases, .associations, .resolvers].Nodup
      decide
    exact (((sortedPerm.map shape).map Prod.fst).nodup_iff.mpr kinds).sublist
      ((filter_sublist.map shape).map Prod.fst)
  -- slide
  obtain ⟨slid, isSlid, slidCarried, _⟩ := packLeft_spec space
    (Nat.add_le_add_left frontier rv.slabPtr) sorted 0 rv.lanes.memory
    (fun resident mem => resting.settled (sortedPerm.mem_iff.mp mem)) inOrder
  rw [Nat.add_zero] at isSlid slidCarried
  have slidShape := stackedFrom_shape rv.slabPtr (sorted.filter isLive)
  have total := inOrder_totalBytes inOrder
  -- rotate
  obtain ⟨result, rotated, isRotated, stacked, resultShape, rotatedCarried⟩ := reorder_spec space
    wanted [] (stackedFrom rv.slabPtr (sorted.filter isLive)) slid
    (fun desired mem => resting.settled (wantedPerm.mem_iff.mp mem))
    (stackedFrom_stacked _ _)
    (by
      rw [slidShape, forall_mem_map]
      exact filled)
    (by rw [nil_append, totalBytes_congr slidShape]; omega)
    (by rw [slidShape]; exact (livePerm wantedPerm).trans (livePerm sortedPerm).symm)
    (by rwa [slidShape])
  rw [map_nil, nil_append] at resultShape
  have alignable : ∀ resident ∈ result, Alignable resident :=
    Alignable.congr (resting.alignableIn wantedPerm) fun kept mem => resultShape ▸ mem
  have resultEnd : packEnd bytes align (rv.slabPtr + 0) result = rv.slabPtr + stop :=
    (packEnd_congr _ resultShape).trans isEnd
  -- spread
  obtain ⟨starts, isDestinations, isStarts⟩ := destinations_spec result 0 alignable
    (show packEnd bytes align (rv.slabPtr + 0) result ≤ platform.usizeMax by omega)
  rw [resultEnd, Nat.add_sub_cancel_left] at isDestinations
  obtain ⟨placed, after, isPlaced, placedShape, placedStarts, placedCarried, _⟩ := spread_spec space
    result starts rv.slabPtr 0 rotated le_rfl le_rfl stacked
    (fun resident mem => Nat.lt_of_lt_of_le (Alignable.positive alignable resident mem)
      (alignable resident mem).small) (Alignable.positive alignable) isStarts
  have placedAlignable : ∀ resident ∈ placed, Alignable resident :=
    Alignable.congr alignable fun kept mem => placedShape ▸ mem
  rw [← packStarts_congr _ placedShape] at placedStarts
  obtain ⟨placedOrder, placedAligned⟩ :=
    inOrder_of_packStarts (Alignable.positive placedAlignable) placedStarts
  rw [packEnd_congr _ placedShape, resultEnd] at placedOrder
  refine ⟨wanted, stop, placed, sorted.filter fun resident => !isLive resident, after, isBest, ?_,
    below, fun resident mem => ?_, ?_, placedOrder, placedAligned, ?_⟩
  · rw [Rendezvous.moveLiveSidecars, isBest, Run.bind_ok]
    dsimp only
    rw [isSortOk, Run.bind_ok, isSlid, Run.bind_ok]
    rw [isRotated, Run.bind_ok]
    rw [isDestinations, Run.bind_ok]
    rw [if_neg (by omega), isPlaced]
    rfl
  · have notLive := (mem_filter.mp mem).2
    rw [Bool.not_eq_true', isLive, decide_eq_false_iff_not, not_not] at notLive
    exact notLive
  · rw [placedShape, resultShape]
    exact livePerm wantedPerm
  · intro resident mem
    have inSorted : resident ∈ sorted.filter isLive := (sortedPerm.filter isLive).mem_iff.mpr mem
    exact (slidCarried.trans (rotatedCarried.trans placedCarried)) resident inSorted

end Resting

end Rendezvous

end Hibana
