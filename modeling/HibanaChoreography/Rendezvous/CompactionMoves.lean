/-
This file is about the moves of a compaction.

The live blocks are slid to the low end of the slab, rotated into the order that packs
best, and spread out again to their aligned places. Each of the three passes carries
the bytes of every block to its next place, although the places overlap: a slide only
writes below the blocks that are still to be moved, and the spread, which goes
backwards, only above them.
-/

import HibanaChoreography.Library.Packing
import HibanaChoreography.Rendezvous.EndpointLeases
import Mathlib.Data.BitVec

namespace Hibana

open Outcome ByteMemory Packing List

namespace ResidentSidecar

abbrev ptr (resident : ResidentSidecar) : Nat := resident.storage.ptr

abbrev bytes (resident : ResidentSidecar) : Nat := resident.storage.bytes

/-- What a move keeps: the owner, the size and the alignment. -/
def shape (resident : ResidentSidecar) : ResidentSidecarKind × Nat × Nat :=
  (resident.kind, resident.bytes, resident.align)

/-- The block at another place. -/
def movedTo (resident : ResidentSidecar) (ptr : Nat) : ResidentSidecar :=
  { resident with storage := ⟨ptr, resident.storage.bytes⟩ }

@[simp] theorem movedTo_shape (resident : ResidentSidecar) (ptr : Nat) :
    (resident.movedTo ptr).shape = resident.shape := rfl

end ResidentSidecar

open ResidentSidecar

/-- Every block of a list is in another list, and the second memory has its bytes there. -/
def Carried (memory : Memory) (residents : List ResidentSidecar) (after : Memory)
    (moved : List ResidentSidecar) : Prop :=
  ∀ resident ∈ residents, ∃ target ∈ moved, target.shape = resident.shape ∧
    SameBytes memory resident.ptr after target.ptr resident.bytes

namespace Carried

variable {memory middle after : Memory} {residents moved placed : List ResidentSidecar}

theorem trans (first : Carried memory residents middle moved)
    (second : Carried middle moved after placed) : Carried memory residents after placed := by
  intro resident mem
  obtain ⟨next, inMoved, sameShape, same⟩ := first resident mem
  obtain ⟨target, inPlaced, isShape, isSame⟩ := second next inMoved
  have sameBytes : next.bytes = resident.bytes := congrArg (·.2.1) sameShape
  refine ⟨target, inPlaced, isShape.trans sameShape, same.trans ?_⟩
  rwa [← sameBytes]

/-- Blocks that stay where they are, in a memory that agrees on them. -/
theorem stay
    (same : ∀ resident ∈ residents, SameBytes memory resident.ptr after resident.ptr resident.bytes)
    (isSub : ∀ resident ∈ residents, resident ∈ moved) : Carried memory residents after moved :=
  fun resident mem => ⟨resident, isSub resident mem, rfl, same resident mem⟩

theorem append {others otherMoved : List ResidentSidecar}
    (first : Carried memory residents after moved)
    (second : Carried memory others after otherMoved) :
    Carried memory (residents ++ others) after (moved ++ otherMoved) := by
  intro resident mem
  rcases mem_append.mp mem with inFirst | inSecond
  · obtain ⟨target, inMoved, isTarget⟩ := first resident inFirst
    exact ⟨target, mem_append_left _ inMoved, isTarget⟩
  · obtain ⟨target, inMoved, isTarget⟩ := second resident inSecond
    exact ⟨target, mem_append_right _ inMoved, isTarget⟩

end Carried

/-! ### Blocks without gaps -/

/-- Blocks that lie behind each other from an address on, without gaps. -/
def Stacked (address : Nat) : List ResidentSidecar → Prop
  | [] => True
  | resident :: rest => resident.ptr = address ∧ Stacked (address + resident.bytes) rest

/-- The blocks, moved there. -/
def stackedFrom (address : Nat) : List ResidentSidecar → List ResidentSidecar
  | [] => []
  | resident :: rest => resident.movedTo address :: stackedFrom (address + resident.bytes) rest

def totalBytes (residents : List ResidentSidecar) : Nat := (residents.map bytes).sum

section Stack

variable {address : Nat} {residents others : List ResidentSidecar}

@[simp] theorem totalBytes_nil : totalBytes [] = 0 := rfl

@[simp] theorem totalBytes_cons (resident : ResidentSidecar) (residents : List ResidentSidecar) :
    totalBytes (resident :: residents) = resident.bytes + totalBytes residents := rfl

@[simp] theorem totalBytes_append (residents others : List ResidentSidecar) :
    totalBytes (residents ++ others) = totalBytes residents + totalBytes others := by
  rw [totalBytes, map_append, sum_append]
  rfl

theorem totalBytes_congr (sameShapes : residents.map shape = others.map shape) :
    totalBytes residents = totalBytes others := by
  have isBytes : ∀ list : List ResidentSidecar, list.map bytes = (list.map shape).map (·.2.1) :=
    fun list => by rw [map_map]; rfl
  rw [totalBytes, totalBytes, isBytes, isBytes, sameShapes]

theorem inOrder_totalBytes {stop : Nat} (inOrder : InOrder bytes ptr address stop residents) :
    address + totalBytes residents ≤ stop := by
  induction residents generalizing address with
  | nil => exact inOrder
  | cons resident rest hyp =>
    have low := inOrder.1
    have high := hyp inOrder.2
    rw [totalBytes_cons]
    omega

theorem stackedFrom_stacked (address : Nat) (residents : List ResidentSidecar) :
    Stacked address (stackedFrom address residents) := by
  induction residents generalizing address with
  | nil => trivial
  | cons resident rest hyp => exact ⟨rfl, hyp _⟩

@[simp] theorem stackedFrom_shape (address : Nat) (residents : List ResidentSidecar) :
    (stackedFrom address residents).map shape = residents.map shape := by
  induction residents generalizing address with
  | nil => rfl
  | cons resident rest hyp => exact congrArg (resident.shape :: ·) (hyp _)

theorem stacked_append : Stacked address (residents ++ others) ↔
    Stacked address residents ∧ Stacked (address + totalBytes residents) others := by
  induction residents generalizing address with
  | nil => simp [Stacked]
  | cons resident rest hyp =>
    rw [cons_append, Stacked, Stacked, hyp, and_assoc, totalBytes_cons, Nat.add_assoc]

theorem Stacked.mem (stacked : Stacked address residents) {resident : ResidentSidecar}
    (mem : resident ∈ residents) :
    address ≤ resident.ptr ∧ resident.ptr + resident.bytes ≤ address + totalBytes residents := by
  induction residents generalizing address with
  | nil => cases mem
  | cons first rest hyp =>
    rw [totalBytes_cons]
    rcases mem_cons.mp mem with rfl | inRest
    · have isPtr := stacked.1
      omega
    · have isRest := hyp stacked.2 inRest
      omega

/-- Stacking stacked blocks again, some bytes higher, shifts every one of them. -/
theorem Stacked.shift (stacked : Stacked address residents) (distance : Nat) :
    stackedFrom (address + distance) residents =
      residents.map fun resident => resident.movedTo (resident.ptr + distance) := by
  induction residents generalizing address with
  | nil => rfl
  | cons resident rest hyp =>
    rw [stackedFrom, map_cons, stacked.1, Nat.add_right_comm, hyp stacked.2]

end Stack

/-! ### Blocks in the slab -/

/-- A slab as the language gives it: not at the null address, and inside the address space. -/
structure InSpace (usizeMax : Nat) (rv : Rendezvous) : Prop where
  nonnull : 0 < rv.slabPtr
  fits : rv.slabPtr + rv.slabLen ≤ usizeMax

/-- A block in the slab. -/
structure InSlab (rv : Rendezvous) (sidecar : Sidecar) : Prop where
  filled : 0 < sidecar.bytes
  low : rv.slabPtr ≤ sidecar.ptr
  high : sidecar.ptr + sidecar.bytes ≤ rv.slabPtr + rv.slabLen

/-- The block of a table: empty, or in the slab. -/
def Settled (rv : Rendezvous) (resident : ResidentSidecar) : Prop :=
  resident.storage = .empty ∨ InSlab rv resident.storage

def isLive (resident : ResidentSidecar) : Bool := resident.storage ≠ .empty

namespace Rendezvous

variable {Key Ref : Type} {platform : Platform Key Ref} {rv : Rendezvous}

section Slab

variable {sidecar : Sidecar} (space : InSpace platform.usizeMax rv)

theorem isEmpty_empty : Sidecar.empty.isEmpty = .ok true := rfl

include space in
theorem isEmpty_inSlab (inSlab : InSlab rv sidecar) : sidecar.isEmpty = .ok false := by
  have nonnull := space.nonnull
  have filled := inSlab.filled
  have low := inSlab.low
  rw [Sidecar.isEmpty, if_neg (by omega), if_neg (by omega)]

include space in
theorem fromRawParts_inSlab {ptr bytes : Nat} (low : rv.slabPtr ≤ ptr) (filled : 0 < bytes) :
    Sidecar.fromRawParts ptr bytes = .ok ⟨ptr, bytes⟩ := by
  have nonnull := space.nonnull
  rw [Sidecar.fromRawParts, if_neg (by omega)]

theorem sidecarRange_empty : rv.sidecarRange platform .empty = .ok none := rfl

include space in
theorem sidecarRange_inSlab (inSlab : InSlab rv sidecar) : rv.sidecarRange platform sidecar =
    .ok (some (sidecar.ptr - rv.slabPtr, sidecar.ptr - rv.slabPtr + sidecar.bytes)) := by
  have low := inSlab.low
  have high := inSlab.high
  have fits := space.fits
  rw [sidecarRange, isEmpty_inSlab space inSlab, Run.bind_ok, if_neg Bool.false_ne_true,
    Layout.sub_ok low, Run.bind_ok, Layout.add_ok (by omega), Run.bind_ok, if_neg (by omega)]
  rfl

variable {resident : ResidentSidecar} {residents others : List ResidentSidecar}

include space in
theorem isLive_inSlab (inSlab : InSlab rv resident.storage) : isLive resident = true := by
  have nonnull := space.nonnull
  have low := inSlab.low
  refine decide_eq_true fun isEmpty => ?_
  rw [isEmpty] at low
  exact absurd low (Nat.not_le.mpr nonnull)

theorem inSlab_of_live (settled : Settled rv resident) (live : isLive resident = true) :
    InSlab rv resident.storage :=
  settled.resolve_left (of_decide_eq_true live)

include space in
theorem sidecarRange_settled (settled : Settled rv resident) :
    rv.sidecarRange platform resident.storage = .ok (if isLive resident then
      some (resident.ptr - rv.slabPtr, resident.ptr - rv.slabPtr + resident.bytes) else none) := by
  rcases settled with isEmpty | inSlab
  · rw [isEmpty, sidecarRange_empty, if_neg]
    exact fun live => of_decide_eq_true live isEmpty
  · rw [sidecarRange_inSlab space inSlab, if_pos (isLive_inSlab space inSlab)]

include space in
theorem isEmpty_settled (settled : Settled rv resident) :
    resident.storage.isEmpty = .ok !isLive resident := by
  rcases settled with isEmpty | inSlab
  · rw [isEmpty, isEmpty_empty, isLive, isEmpty]
    rfl
  · rw [isEmpty_inSlab space inSlab, isLive_inSlab space inSlab]
    rfl

/-! ### Sorting -/

/-- The place of a block for sorting: the empty ones come behind the slab. -/
def sortKey (rv : Rendezvous) (resident : ResidentSidecar) : Nat :=
  if isLive resident then resident.ptr else rv.slabPtr + rv.slabLen + 1

include space in
theorem ordered_eq {previous candidate : ResidentSidecar} (isPrevious : Settled rv previous)
    (isCandidate : Settled rv candidate) :
    rv.ordered platform previous.storage candidate.storage =
      .ok (decide (rv.sortKey previous ≤ rv.sortKey candidate)) := by
  rw [ordered, sidecarRange_settled space isPrevious, Run.bind_ok,
    sidecarRange_settled space isCandidate, Run.bind_ok, sortKey, sortKey]
  cases previousLive : isLive previous with
  | false =>
    cases candidateLive : isLive candidate with
    | false => simp
    | true =>
      have high := (inSlab_of_live isCandidate candidateLive).high
      have behind : ¬ rv.slabPtr + rv.slabLen + 1 ≤ candidate.ptr := by
        unfold ResidentSidecar.ptr
        omega
      simp [behind]
  | true =>
    have inSlab := inSlab_of_live isPrevious previousLive
    have low := inSlab.low
    have high := inSlab.high
    cases candidateLive : isLive candidate with
    | false =>
      have before : previous.ptr ≤ rv.slabPtr + rv.slabLen + 1 := by
        unfold ResidentSidecar.ptr
        omega
      simp [before]
    | true =>
      have candidateLow := (inSlab_of_live isCandidate candidateLive).low
      have same : previous.ptr - rv.slabPtr ≤ candidate.ptr - rv.slabPtr ↔
          previous.ptr ≤ candidate.ptr := by
        unfold ResidentSidecar.ptr
        omega
      simp [same]

include space in
/-- An insertion keeps the list sorted, last first. -/
theorem insertResident_spec {candidate : ResidentSidecar} (isCandidate : Settled rv candidate)
    (sorted : List ResidentSidecar) (settled : ∀ resident ∈ sorted, Settled rv resident)
    (isSorted : sorted.Pairwise fun first second => rv.sortKey second ≤ rv.sortKey first) :
    ∃ inserted, rv.insertResident platform candidate sorted = .ok inserted ∧
      inserted.Perm (candidate :: sorted) ∧
      inserted.Pairwise fun first second => rv.sortKey second ≤ rv.sortKey first := by
  induction sorted with
  | nil => exact ⟨[candidate], rfl, List.Perm.refl _, pairwise_singleton _ _⟩
  | cons previous rest hyp =>
    rw [forall_mem_cons] at settled
    have isRest := pairwise_cons.mp isSorted
    rw [insertResident, ordered_eq space settled.1 isCandidate, Run.bind_ok]
    by_cases isOrdered : rv.sortKey previous ≤ rv.sortKey candidate
    · refine ⟨candidate :: previous :: rest, if_pos (decide_eq_true isOrdered), List.Perm.refl _,
        pairwise_cons.mpr ⟨fun other mem => ?_, isSorted⟩⟩
      rcases mem_cons.mp mem with rfl | inRest
      · exact isOrdered
      · exact Nat.le_trans (isRest.1 other inRest) isOrdered
    · obtain ⟨inserted, isOk, isPerm, isInserted⟩ := hyp settled.2 isRest.2
      refine ⟨previous :: inserted, ?_, (isPerm.cons previous).trans (List.Perm.swap ..),
        pairwise_cons.mpr ⟨fun other mem => ?_, isInserted⟩⟩
      · rw [if_neg (by simpa using isOrdered), isOk]
        rfl
      · rcases mem_cons.mp (isPerm.mem_iff.mp mem) with rfl | inRest
        · exact Nat.le_of_not_le isOrdered
        · exact isRest.1 other inRest

include space in
theorem sortResidentSidecars_spec (residents : List ResidentSidecar)
    (settled : ∀ resident ∈ residents, Settled rv resident) :
    ∃ sorted, rv.sortResidentSidecars platform residents = .ok sorted ∧ sorted.Perm residents ∧
      sorted.Pairwise fun first second => rv.sortKey first ≤ rv.sortKey second := by
  have fold : ∀ (pending before : List ResidentSidecar),
      (∀ resident ∈ pending, Settled rv resident) → (∀ resident ∈ before, Settled rv resident) →
      (before.Pairwise fun first second => rv.sortKey second ≤ rv.sortKey first) →
      ∃ result, pending.foldlM (fun sorted candidate =>
          rv.insertResident platform candidate sorted) before = .ok result ∧
        result.Perm (pending ++ before) ∧
        result.Pairwise fun first second => rv.sortKey second ≤ rv.sortKey first := by
    intro pending
    induction pending with
    | nil => exact fun before _ _ isSorted => ⟨before, rfl, List.Perm.refl _, isSorted⟩
    | cons candidate rest hyp =>
      intro before isPending isBefore isSorted
      rw [forall_mem_cons] at isPending
      obtain ⟨inserted, isOk, isPerm, isInserted⟩ :=
        insertResident_spec space isPending.1 before isBefore isSorted
      obtain ⟨result, isResult, resultPerm, resultSorted⟩ := hyp inserted isPending.2
        (fun resident mem => by
          rcases mem_cons.mp (isPerm.mem_iff.mp mem) with rfl | inBefore
          · exact isPending.1
          · exact isBefore resident inBefore) isInserted
      refine ⟨result, ?_, ?_, resultSorted⟩
      · rw [foldlM_cons, isOk, Run.bind_ok, isResult]
      · exact resultPerm.trans ((isPerm.append_left rest).trans perm_middle)
  obtain ⟨result, isOk, isPerm, isSorted⟩ := fold residents [] settled (nofun) List.Pairwise.nil
  refine ⟨result.reverse, ?_, ?_, pairwise_reverse.mpr isSorted⟩
  · rw [sortResidentSidecars, isOk]
    rfl
  · rw [append_nil] at isPerm
    exact (reverse_perm result).trans isPerm

/-! ### Sliding the blocks together -/

include space in
theorem placeFrom_eq (residents : List ResidentSidecar) (offset : Nat)
    (filled : ∀ resident ∈ residents, 0 < resident.bytes)
    (fits : rv.slabPtr + offset + totalBytes residents ≤ rv.slabPtr + rv.slabLen) :
    rv.placeFrom platform residents offset = .ok (stackedFrom (rv.slabPtr + offset) residents) := by
  induction residents generalizing offset with
  | nil => rfl
  | cons resident rest hyp =>
    rw [forall_mem_cons] at filled
    rw [totalBytes_cons] at fits
    have inSpace := space.fits
    rw [placeFrom, fromRawParts_inSlab space (Nat.le_add_right _ _) filled.1, Run.bind_ok]
    dsimp only
    rw [Layout.add_ok (by omega), Run.bind_ok, hyp _ filled.2 (by omega), ← Nat.add_assoc]
    rfl

include space in
/-- Sliding blocks that lie behind each other carries their bytes to the low end. -/
theorem packLeft_spec {stop : Nat} (isStop : stop ≤ rv.slabPtr + rv.slabLen)
    (residents : List ResidentSidecar) (frontier : Nat) (memory : Memory)
    (settled : ∀ resident ∈ residents, Settled rv resident)
    (inOrder : InOrder bytes ptr (rv.slabPtr + frontier) stop (residents.filter isLive)) :
    ∃ after, rv.packLeft platform residents frontier memory =
        .ok ((stackedFrom (rv.slabPtr + frontier) (residents.filter isLive),
          residents.filter fun resident => !isLive resident), after) ∧
      Carried memory (residents.filter isLive) after
        (stackedFrom (rv.slabPtr + frontier) (residents.filter isLive)) ∧
      AgreeOutside (rv.slabPtr + frontier) stop memory after := by
  induction residents generalizing frontier memory with
  | nil => exact ⟨memory, rfl, nofun, fun _ _ => rfl⟩
  | cons resident rest hyp =>
    rw [forall_mem_cons] at settled
    rw [packLeft, sidecarRange_settled space settled.1, Run.bind_ok]
    cases live : isLive resident with
    | false =>
      rw [filter_cons_of_neg (ne_true_of_eq_false live)] at inOrder
      obtain ⟨after, isOk, carried, agree⟩ := hyp frontier memory settled.2 inOrder
      refine ⟨after, ?_, ?_, agree⟩
      · rw [if_neg Bool.false_ne_true, filter_cons_of_neg (by rw [live]; exact
          Bool.false_ne_true), filter_cons_of_pos (by rw [live]; rfl)]
        rw [isOk, Run.bind_ok]
        rfl
      · rwa [filter_cons_of_neg (ne_true_of_eq_false live)]
    | true =>
      have inSlab := inSlab_of_live settled.1 live
      have filled : 0 < resident.bytes := inSlab.filled
      rw [filter_cons_of_pos live] at inOrder
      obtain ⟨low, restOrder⟩ := inOrder
      have bounds := restOrder.le
      have fits := space.fits
      obtain ⟨after, isOk, carried, agree⟩ := hyp (frontier + resident.bytes)
        (copy memory resident.ptr (rv.slabPtr + frontier) resident.bytes) settled.2
        (restOrder.mono (by omega))
      rw [← Nat.add_assoc] at isOk carried agree
      refine ⟨after, ?_, ?_, fun place outside => ?_⟩
      · rw [if_pos rfl, filter_cons_of_pos live, filter_cons_of_neg (by
          rw [live]; exact Bool.false_ne_true)]
        dsimp only
        rw [if_neg (by omega), fromRawParts_inSlab space (Nat.le_add_right _ _) filled, Run.bind_ok]
        dsimp only
        rw [Layout.add_ok (by omega), Run.bind_ok]
        rw [isOk]
        rfl
      · rw [filter_cons_of_pos live, stackedFrom, ← singleton_append, ←
          singleton_append (l := stackedFrom ..)]
        refine Carried.append (fun other mem => ?_) (Carried.trans ?_ carried)
        · -- the first block is copied now, and the later copies stay above it
          rw [mem_singleton.mp mem]
          refine ⟨_, mem_singleton.mpr rfl, rfl, ?_⟩
          exact SameBytes.trans (copy_sameBytes _ _ _ _) (agree.sameBytes (.inl le_rfl))
        · -- the blocks behind it are not touched by the copy
          refine Carried.stay (fun other mem => ?_) fun other mem => mem
          have isBehind := (restOrder.mem mem).1
          intro index inside
          rw [copy_of_outside _ (by omega)]
      · rw [agree place (by omega), copy_of_outside _ (by omega)]

/-! ### Rotating the blocks into order -/

variable {selected : ResidentSidecar}

/-- A rotation brings the last of some stacked blocks in front of the others. -/
theorem rotateRight_carried {memory : Memory} {start : Nat} {between : List ResidentSidecar}
    (stacked : Stacked start (between ++ [selected])) :
    Carried memory (between ++ [selected])
      (rotateRight memory start (selected.ptr + selected.bytes) selected.bytes)
      (stackedFrom start (selected :: between)) := by
  obtain ⟨isBetween, isSelected, _⟩ := stacked_append.mp stacked
  intro resident mem
  rcases mem_append.mp mem with inBetween | isLast
  · have bounds := isBetween.mem inBetween
    refine ⟨resident.movedTo (resident.ptr + selected.bytes), ?_, rfl,
      rotateRight_others memory bounds.1 (by omega)⟩
    rw [stackedFrom, isBetween.shift]
    exact mem_cons_of_mem _ (mem_map.mpr ⟨resident, inBetween, rfl⟩)
  · rw [mem_singleton.mp isLast]
    refine ⟨selected.movedTo start, mem_cons_self, rfl, ?_⟩
    have last := rotateRight_last memory (show start + selected.bytes ≤
      selected.ptr + selected.bytes by omega)
    rwa [Nat.add_sub_cancel] at last

/-- The first block of a kind in a list that has its shape. -/
theorem split_at_kind {rest : List ResidentSidecar} {desired : ResidentSidecar}
    (distinct : ((rest.map shape).map Prod.fst).Nodup) (isThere : desired.shape ∈ rest.map shape) :
    ∃ between selected back, rest = between ++ selected :: back ∧ selected.shape = desired.shape ∧
      rest.findIdx? (fun resident => resident.kind = desired.kind) = some between.length := by
  obtain ⟨found, inRest, sameShape⟩ := mem_map.mp isThere
  obtain ⟨between, back, isRest⟩ := append_of_mem inRest
  subst isRest
  refine ⟨between, found, back, rfl, sameShape, ?_⟩
  have sameKind : found.kind = desired.kind := congrArg Prod.fst sameShape
  have others : between.findIdx?
      (fun resident => decide (resident.kind = desired.kind)) = none := by
    rw [findIdx?_eq_none_iff]
    intro resident inBetween
    refine decide_eq_false fun isKind => ?_
    rw [map_map, map_append, nodup_append] at distinct
    refine distinct.2.2 _ (mem_map.mpr ⟨resident, inBetween, rfl⟩) _
      (mem_map.mpr ⟨found, mem_cons_self, rfl⟩) (isKind.trans sameKind.symm)
  rw [findIdx?_append, others, findIdx?_cons, decide_eq_true sameKind]
  simp

include space in
/-- A block that is brought forward stands in front, and the blocks stay stacked. -/
theorem bringForward_spec {fixed between back : List ResidentSidecar} (memory : Memory)
    (stacked : Stacked rv.slabPtr (fixed ++ (between ++ selected :: back)))
    (filled : ∀ resident ∈ between ++ selected :: back, 0 < resident.bytes)
    (fits : totalBytes (fixed ++ (between ++ selected :: back)) ≤ rv.slabLen) :
    ∃ moved shifted after,
      rv.bringForward platform (between ++ selected :: back) between.length memory =
        .ok (moved, shifted ++ back, after) ∧
      moved.shape = selected.shape ∧ shifted.map shape = between.map shape ∧
      Stacked rv.slabPtr ((fixed ++ [moved]) ++ (shifted ++ back)) ∧
      Carried memory (fixed ++ (between ++ selected :: back)) after
        ((fixed ++ [moved]) ++ (shifted ++ back)) := by
  have isTake : (between ++ selected :: back).take between.length = between := take_left
  have isDrop : (between ++ selected :: back).drop between.length = selected :: back :=
    drop_left
  rw [bringForward, isTake, isDrop]
  cases between with
  | nil =>
    refine ⟨selected, [], memory, rfl, rfl, rfl, ?_, Carried.stay (fun _ _ _ _ => rfl) ?_⟩
    · rwa [append_assoc]
    · rw [append_assoc]
      exact fun _ => id
  | cons first others =>
    -- the rotated range begins behind the fixed blocks and ends behind the selected one
    have inSpace := space.fits
    have isSplit : first :: others ++ selected :: back = (first :: others ++ [selected]) ++ back :=
      append_cons _ _ _
    rw [isSplit] at stacked filled fits ⊢
    rw [totalBytes_append, totalBytes_append] at fits
    obtain ⟨isFixed, isRest⟩ := stacked_append.mp stacked
    obtain ⟨isRange, isBack⟩ := stacked_append.mp isRest
    have inRange : ∀ resident ∈ (first :: others) ++ [selected], InSlab rv resident.storage :=
      fun resident mem => by
        have bounds := isRange.mem mem
        exact ⟨filled resident (mem_append_left back mem),
          show rv.slabPtr ≤ resident.ptr by omega,
          show resident.ptr + resident.bytes ≤ rv.slabPtr + rv.slabLen by omega⟩
    have inFirst := inRange first (mem_append_left _ mem_cons_self)
    have inSelected := inRange selected (mem_append_right _ mem_cons_self)
    have isStart : first.ptr = rv.slabPtr + totalBytes fixed := isRange.1
    have atStart : rv.slabPtr + (first.ptr - rv.slabPtr) = rv.slabPtr + totalBytes fixed := by omega
    have atStop : rv.slabPtr + (selected.ptr - rv.slabPtr + selected.bytes) =
        selected.ptr + selected.bytes := by
      have low : rv.slabPtr ≤ selected.ptr := inSelected.low
      omega
    have isPlaced : rv.placeFrom platform (selected :: first :: others) (first.ptr - rv.slabPtr) =
        .ok (stackedFrom (rv.slabPtr + totalBytes fixed) (selected :: first :: others)) := by
      rw [placeFrom_eq space, atStart]
      · intro resident mem
        refine (inRange resident ?_).filled
        rw [mem_append, mem_singleton, or_comm]
        exact mem_cons.mp mem
      · rw [totalBytes_append (first :: others)] at fits
        rw [atStart]
        simp only [totalBytes_cons, totalBytes_nil] at fits ⊢
        omega
    refine ⟨selected.movedTo (rv.slabPtr + totalBytes fixed),
      stackedFrom (rv.slabPtr + totalBytes fixed + selected.bytes) (first :: others),
      rotateRight memory (rv.slabPtr + totalBytes fixed) (selected.ptr + selected.bytes)
        selected.bytes, ?_, rfl, stackedFrom_shape _ _, ?_, ?_⟩
    · dsimp only
      rw [sidecarRange_inSlab space inFirst, Run.bind_ok, sidecarRange_inSlab space inSelected,
        Run.bind_ok]
      dsimp only
      rw [isPlaced, Run.bind_ok, atStart, atStop]
      rfl
    · rw [append_assoc, ← append_assoc [_]]
      refine stacked_append.mpr ⟨isFixed, stacked_append.mpr
        ⟨stackedFrom_stacked _ (selected :: first :: others), ?_⟩⟩
      have sameTotal : totalBytes (stackedFrom (rv.slabPtr + totalBytes fixed)
          (selected :: first :: others)) = totalBytes (first :: others ++ [selected]) := by
        rw [totalBytes_congr (stackedFrom_shape _ _), totalBytes_append, Nat.add_comm]
        rfl
      exact sameTotal ▸ isBack
    · rw [append_assoc fixed [_], ← append_assoc [_]]
      refine Carried.append (Carried.stay (fun resident mem => ?_) fun _ => id)
        (Carried.append (rotateRight_carried isRange)
          (Carried.stay (fun resident mem => ?_) fun _ => id))
      · have bounds := isFixed.mem mem
        intro index inside
        exact rotateRight_of_outside memory (by omega)
      · have bounds := isBack.mem mem
        have last := isRange.mem (mem_append_right _ mem_cons_self)
        intro index inside
        exact rotateRight_of_outside memory (by omega)

include space in
/-- The blocks come into the wanted order and stay stacked. -/
theorem reorder_spec (wanted fixed rest : List ResidentSidecar) (memory : Memory)
    (settled : ∀ desired ∈ wanted, Settled rv desired)
    (stacked : Stacked rv.slabPtr (fixed ++ rest))
    (filled : ∀ resident ∈ rest.map shape, 0 < resident.2.1)
    (fits : totalBytes (fixed ++ rest) ≤ rv.slabLen)
    (sameShapes : ((wanted.filter isLive).map shape).Perm (rest.map shape))
    (distinct : ((rest.map shape).map Prod.fst).Nodup) :
    ∃ result after, rv.reorder platform wanted fixed rest memory = .ok (result, after) ∧
      Stacked rv.slabPtr result ∧
      result.map shape = fixed.map shape ++ (wanted.filter isLive).map shape ∧
      Carried memory (fixed ++ rest) after result := by
  induction wanted generalizing fixed rest memory with
  | nil =>
    obtain rfl : rest = [] := map_eq_nil_iff.mp (nil_perm.mp sameShapes)
    refine ⟨fixed ++ [], memory, rfl, stacked, ?_, Carried.stay (fun _ _ _ _ => rfl) fun _ => id⟩
    rw [append_nil, filter_nil, map_nil, append_nil]
  | cons desired wanted hyp =>
    rw [forall_mem_cons] at settled
    rw [reorder, isEmpty_settled space settled.1, Run.bind_ok]
    cases live : isLive desired with
    | false =>
      rw [filter_cons_of_neg (ne_true_of_eq_false live)] at sameShapes ⊢
      exact hyp fixed rest memory settled.2 stacked filled fits sameShapes distinct
    | true =>
      rw [filter_cons_of_pos live, map_cons] at sameShapes
      obtain ⟨between, selected, back, rfl, sameShape, isIndex⟩ :=
        split_at_kind distinct (sameShapes.mem_iff.mp mem_cons_self)
      obtain ⟨moved, shifted, middle, isMoved, movedShape, shiftedShape, isStacked, isCarried⟩ :=
        bringForward_spec space memory stacked
          (fun resident mem => filled _ (mem_map_of_mem mem)) fits
      have isRest : (shifted ++ back).map shape = (between ++ back).map shape := by
        rw [map_append, map_append, shiftedShape]
      have isSublist : ((between ++ back).map shape).Sublist
          ((between ++ selected :: back).map shape) :=
        ((sublist_cons_self _ _).append_left between).map shape
      have sameTotal : totalBytes (fixed ++ [moved] ++ (shifted ++ back)) =
          totalBytes (fixed ++ (between ++ selected :: back)) := by
        have movedBytes : moved.bytes = selected.bytes := congrArg (·.2.1) movedShape
        simp only [totalBytes_append, totalBytes_cons, totalBytes_nil, movedBytes,
          totalBytes_congr shiftedShape]
        omega
      rw [map_append, map_cons, ← sameShape] at sameShapes
      have restShapes := (sameShapes.trans perm_middle).cons_inv
      rw [← map_append, ← isRest] at restShapes
      rw [← isRest] at isSublist
      obtain ⟨result, after, isOk, resultStacked, resultShape, carried⟩ := hyp (fixed ++ [moved])
        (shifted ++ back) middle settled.2 isStacked
        (fun resident mem => filled resident (isSublist.subset mem)) (sameTotal ▸ fits)
        restShapes (distinct.sublist (isSublist.map Prod.fst))
      refine ⟨result, after, ?_, resultStacked, ?_, isCarried.trans carried⟩
      · rw [if_neg (by decide), isIndex]
        dsimp only
        rw [isMoved, Run.bind_ok]
        exact isOk
      · rw [resultShape, filter_cons_of_pos live, map_cons, ← sameShape, ← movedShape,
          map_append, append_assoc]
        rfl

/-! ### Packed places -/

/-- The alignment of a block is a power of two that is not larger than the block. -/
structure Alignable (resident : ResidentSidecar) : Prop where
  isPower : Layout.isPowerOfTwo resident.align = true
  small : resident.align ≤ resident.bytes

theorem isPowerOfTwo_pos {align : Nat} (isPower : Layout.isPowerOfTwo align = true) : 0 < align :=
  Nat.pos_of_ne_zero (of_decide_eq_true isPower).1

theorem checkedAlignOffset_eq {base offset align : Nat} {usizeMax : Nat}
    (isPower : Layout.isPowerOfTwo align = true) :
    Layout.checkedAlignOffset usizeMax base offset align =
      .ok (if base + offset + (align - 1) ≤ usizeMax then
        some (firstAligned (base + offset) align - base) else none) := by
  have behind := le_firstAligned (base + offset) (isPowerOfTwo_pos isPower)
  unfold Layout.checkedAlignOffset Layout.checkedAdd
  by_cases inDomain : base + offset ≤ usizeMax
  · rw [if_pos inDomain]
    dsimp only
    unfold Layout.checkedAlignUp Layout.checkedAdd
    rw [if_neg (not_not_intro isPower), Run.bind_ok]
    by_cases fits : base + offset + (align - 1) ≤ usizeMax
    · rw [if_pos fits, if_pos fits, Option.map_some]
      exact congrArg Except.ok (if_pos (Nat.le_trans (Nat.le_add_right _ _) behind))
    · rw [if_neg fits, if_neg fits]
      rfl
  · rw [if_neg inDomain, if_neg (by omega)]

/-- A packed range begins at the first aligned place. -/
theorem packedSidecarRange_eq {base frontier bytes align : Nat}
    (isPower : Layout.isPowerOfTwo align = true) :
    packedSidecarRange platform base frontier bytes align =
      .ok (if base + frontier + (align - 1) ≤ platform.usizeMax ∧
          firstAligned (base + frontier) align - base + bytes ≤ platform.usizeMax then
        some (firstAligned (base + frontier) align - base,
          firstAligned (base + frontier) align - base + bytes) else none) := by
  rw [packedSidecarRange, checkedAlignOffset_eq isPower, Run.bind_ok]
  by_cases fits : base + frontier + (align - 1) ≤ platform.usizeMax
  · rw [if_pos fits]
    dsimp only
    rw [Layout.checkedAdd]
    by_cases isEnd : firstAligned (base + frontier) align - base + bytes ≤ platform.usizeMax
    · rw [if_pos isEnd, if_pos ⟨fits, isEnd⟩]
      rfl
    · rw [if_neg isEnd, if_neg fun both => isEnd both.2]
      rfl
  · rw [if_neg fits, if_neg fun both => fits both.1]
    rfl

theorem Alignable.positive (alignable : ∀ resident ∈ residents, Alignable resident) :
    ∀ resident ∈ residents, 0 < resident.align :=
  fun resident mem => isPowerOfTwo_pos (alignable resident mem).isPower

theorem Alignable.congr (alignable : ∀ resident ∈ others, Alignable resident)
    (sameShapes : ∀ kept ∈ residents.map shape, kept ∈ others.map shape) :
    ∀ resident ∈ residents, Alignable resident := by
  intro resident mem
  obtain ⟨other, inOthers, sameShape⟩ :=
    mem_map.mp (sameShapes _ (mem_map_of_mem mem))
  have isAlignable := alignable other inOthers
  have sameBytes : other.bytes = resident.bytes := congrArg (·.2.1) sameShape
  have sameAlign : other.align = resident.align := congrArg (·.2.2) sameShape
  exact ⟨sameAlign ▸ isAlignable.isPower, sameAlign ▸ sameBytes ▸ isAlignable.small⟩

/-- The packed places only depend on the shapes of the blocks. -/
theorem packEnd_congr (address : Nat) (sameShapes : residents.map shape = others.map shape) :
    packEnd bytes align address residents = packEnd bytes align address others := by
  have isPacked : ∀ list : List ResidentSidecar, packEnd bytes align address list =
      packEnd (·.2.1) (·.2.2) address (list.map shape) := fun list => by
    rw [packEnd_map]; rfl
  rw [isPacked, isPacked, sameShapes]

theorem packStarts_congr (address : Nat) (sameShapes : residents.map shape = others.map shape) :
    packStarts bytes align address residents = packStarts bytes align address others := by
  have isPacked : ∀ list : List ResidentSidecar, packStarts bytes align address list =
      packStarts (·.2.1) (·.2.2) address (list.map shape) := fun list => by
    rw [packStarts_map]; rfl
  rw [isPacked, isPacked, sameShapes]

include space in
/-- The packing of an order returns its end, unless the packed blocks leave the address space. -/
theorem packedFrontier_spec (order : List ResidentSidecar) (frontier : Nat)
    (settled : ∀ resident ∈ order, Settled rv resident)
    (alignable : ∀ resident ∈ order.filter isLive, Alignable resident) :
    rv.packedFrontier platform order frontier = .ok none ∧
        platform.usizeMax < packEnd bytes align (rv.slabPtr + frontier) (order.filter isLive) ∨
      rv.packedFrontier platform order frontier =
        .ok (some (packEnd bytes align (rv.slabPtr + frontier) (order.filter isLive) -
          rv.slabPtr)) := by
  induction order generalizing frontier with
  | nil => exact .inr (congrArg (Except.ok ∘ some) (Nat.add_sub_cancel_left ..).symm)
  | cons resident rest hyp =>
    rw [forall_mem_cons] at settled
    rw [packedFrontier, isEmpty_settled space settled.1, Run.bind_ok]
    cases live : isLive resident with
    | false =>
      rw [filter_cons_of_neg (ne_true_of_eq_false live)] at alignable ⊢
      exact hyp frontier settled.2 alignable
    | true =>
      rw [filter_cons_of_pos live, forall_mem_cons] at alignable
      have behind := le_firstAligned (rv.slabPtr + frontier)
        (isPowerOfTwo_pos alignable.1.isPower)
      rw [filter_cons_of_pos live, if_neg (by decide),
        packedSidecarRange_eq alignable.1.isPower, Run.bind_ok, packEnd]
      by_cases fits : rv.slabPtr + frontier + (resident.align - 1) ≤ platform.usizeMax ∧
        firstAligned (rv.slabPtr + frontier) resident.align - rv.slabPtr + resident.bytes ≤
          platform.usizeMax
      · have isNext : rv.slabPtr + (firstAligned (rv.slabPtr + frontier) resident.align -
            rv.slabPtr + resident.storage.bytes) =
            firstAligned (rv.slabPtr + frontier) resident.align + resident.bytes := by
          have sameBytes : resident.storage.bytes = resident.bytes := rfl
          omega
        rw [if_pos fits, ← isNext]
        exact hyp _ settled.2 alignable.2
      · rw [if_neg fits]
        refine .inl ⟨rfl, Nat.lt_of_lt_of_le ?_ (le_packEnd (Alignable.positive alignable.2) _)⟩
        have small := alignable.1.small
        omega

theorem destinations_spec (residents : List ResidentSidecar) (frontier : Nat)
    (alignable : ∀ resident ∈ residents, Alignable resident)
    (fits : packEnd bytes align (rv.slabPtr + frontier) residents ≤ platform.usizeMax) :
    ∃ starts, rv.destinations platform residents frontier =
        .ok (starts, packEnd bytes align (rv.slabPtr + frontier) residents - rv.slabPtr) ∧
      starts.map (rv.slabPtr + ·) = packStarts bytes align (rv.slabPtr + frontier) residents := by
  induction residents generalizing frontier with
  | nil =>
    refine ⟨[], congrArg Except.ok (congrArg (Prod.mk []) ?_), rfl⟩
    exact (Nat.add_sub_cancel_left ..).symm
  | cons resident rest hyp =>
    rw [forall_mem_cons] at alignable
    rw [packEnd] at fits
    have behind := le_firstAligned (rv.slabPtr + frontier) (isPowerOfTwo_pos alignable.1.isPower)
    have inside : firstAligned (rv.slabPtr + frontier) resident.align + resident.bytes ≤
        packEnd bytes align _ rest := le_packEnd (Alignable.positive alignable.2) _
    have sameBytes : resident.storage.bytes = resident.bytes := rfl
    have small := alignable.1.small
    have isNext : rv.slabPtr + (firstAligned (rv.slabPtr + frontier) resident.align -
        rv.slabPtr + resident.bytes) =
        firstAligned (rv.slabPtr + frontier) resident.align + resident.bytes := by omega
    rw [destinations, packedSidecarRange_eq alignable.1.isPower, if_pos (by omega), Run.bind_ok]
    rw [← isNext] at fits
    obtain ⟨starts, isOk, isStarts⟩ := hyp _ alignable.2 fits
    refine ⟨(firstAligned (rv.slabPtr + frontier) resident.align - rv.slabPtr) :: starts, ?_, ?_⟩
    · dsimp only
      rw [isOk, Run.bind_ok, isNext]
      rfl
    · rw [map_cons, packStarts, isStarts, isNext]
      congr 1
      omega

include space in
/-- The spread carries stacked blocks to their packed places. -/
theorem spread_spec (residents : List ResidentSidecar) (starts : List Nat)
    (address frontier : Nat) (memory : Memory)
    (low : rv.slabPtr ≤ address) (behind : address ≤ rv.slabPtr + frontier)
    (stacked : Stacked address residents) (filled : ∀ resident ∈ residents, 0 < resident.bytes)
    (pos : ∀ resident ∈ residents, 0 < resident.align)
    (isStarts : starts.map (rv.slabPtr + ·) =
      packStarts bytes align (rv.slabPtr + frontier) residents) :
    ∃ placed after, rv.spread (residents.zip starts) memory = .ok (placed, after) ∧
      placed.map shape = residents.map shape ∧
      placed.map ptr = packStarts bytes align (rv.slabPtr + frontier) residents ∧
      Carried memory residents after placed ∧
      AgreeOutside (rv.slabPtr + frontier)
        (packEnd bytes align (rv.slabPtr + frontier) residents) memory after := by
  induction residents generalizing starts address frontier with
  | nil =>
    exact ⟨[], memory, rfl, rfl, rfl, nofun, fun _ _ => rfl⟩
  | cons resident rest hyp =>
    rw [forall_mem_cons] at filled pos
    obtain ⟨isPtr, isRest⟩ := stacked
    cases starts with
    | nil => cases isStarts
    | cons start starts =>
      rw [map_cons, packStarts] at isStarts
      obtain ⟨isStart, isOthers⟩ := List.cons.inj isStarts
      have aligned := le_firstAligned (rv.slabPtr + frontier) pos.1
      have isNext : firstAligned (rv.slabPtr + frontier) resident.align + resident.bytes =
          rv.slabPtr + (start + resident.bytes) := by omega
      rw [isNext] at isOthers
      obtain ⟨placed, middle, isOk, isShape, isPlaced, carried, agree⟩ := hyp starts
        (address + resident.bytes) _ (by omega) (by omega) isRest filled.2 pos.2 isOthers
      have inside : rv.slabPtr + (start + resident.bytes) ≤ packEnd bytes align _ rest :=
        le_packEnd pos.2 _
      have placedPositive : ∀ target ∈ placed, 0 < target.align := fun target mem => by
        have inShapes := mem_map_of_mem (f := shape) mem
        rw [isShape] at inShapes
        obtain ⟨other, inRest, sameShape⟩ := mem_map.mp inShapes
        have sameAlign : other.align = target.align := congrArg (·.2.2) sameShape
        exact sameAlign ▸ pos.2 other inRest
      refine ⟨resident.movedTo (rv.slabPtr + start) :: placed,
        copy middle resident.ptr (rv.slabPtr + start) resident.bytes, ?_, ?_, ?_, ?_, ?_⟩
      · rw [zip_cons_cons, spread, isOk, Run.bind_ok]
        dsimp only
        rw [fromRawParts_inSlab space (by omega) filled.1, Run.bind_ok]
        rfl
      · rw [map_cons, map_cons, isShape, movedTo_shape]
      · rw [map_cons, packStarts, isPlaced, isNext]
        exact congrArg (· :: _) isStart
      · intro other mem
        rcases mem_cons.mp mem with rfl | inRest
        · -- the blocks behind it have been moved above its stacked place
          refine ⟨_, mem_cons_self, rfl, SameBytes.trans ?_ (copy_sameBytes _ _ _ _)⟩
          exact agree.sameBytes (.inl (by omega))
        · obtain ⟨target, inPlaced, sameShape, same⟩ := carried other inRest
          refine ⟨target, mem_cons_of_mem _ inPlaced, sameShape, same.trans ?_⟩
          rw [← packStarts_congr _ isShape] at isPlaced
          have isBehind := ((inOrder_of_packStarts placedPositive isPlaced).1.mem inPlaced).1
          intro index inRange
          exact copy_of_outside _ (by omega)
      · intro place outside
        rw [packEnd, isNext] at outside
        rw [copy_of_outside _ (by omega), agree place (by omega)]

end Slab

end Rendezvous

end Hibana
