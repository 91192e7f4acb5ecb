/-
This file is about the ledger of the views of an actor: the headers, the counter they are
issued from, the number of live views and the views whose I/O has not ended yet.

A ledger only ever issues a dormant view with the generation behind its counter and retires
a live one. Both keep the ledger in order, and a handle that was retired stays spent: its
generation is behind the counter, and no header goes back.
-/

import HibanaChoreography.Endpoint.Views
import Mathlib.Data.List.Pairwise
import Mathlib.Data.List.Nodup

namespace Hibana

open Outcome List

/-! ### Generations in order -/

theorem and_one_eq_one_iff (generation : UInt32) :
    generation &&& 1 = 1 ↔ generation.toNat % 2 = 1 := by
  rw [← UInt32.toNat_inj, UInt32.toNat_and]
  simp

theorem and_one_eq_zero_iff (generation : UInt32) :
    generation &&& 1 = 0 ↔ generation.toNat % 2 = 0 := by
  rw [← UInt32.toNat_inj, UInt32.toNat_and]
  simp

theorem eq_generationMax_iff (generation : UInt32) :
    generation = generationMax ↔ generation.toNat = 2 ^ 32 - 1 := by
  rw [← UInt32.toNat_inj]
  rfl

theorem KernelEndpointHeader.isIssued_iff (header : KernelEndpointHeader) :
    header.isIssued = true ↔ header.viewGeneration.toNat % 2 = 1 := by
  rw [KernelEndpointHeader.isIssued, beq_iff_eq, and_one_eq_one_iff]

theorem KernelEndpointHeader.isIssued_eq_false_iff (header : KernelEndpointHeader) :
    header.isIssued = false ↔ header.viewGeneration.toNat % 2 = 0 := by
  rw [← Bool.not_eq_true, header.isIssued_iff]
  omega

variable {generation : UInt32}

/-- Only a view that was never issued is entered. -/
theorem KernelEndpointHeader.issueInitial_eq_some {header issued : KernelEndpointHeader}
    (isIssue : header.issueInitial generation = some issued) :
    header.viewGeneration = 0 ∧ issued = { header with viewGeneration := generation } := by
  rw [KernelEndpointHeader.issueInitial] at isIssue
  split at isIssue
  · cases isIssue
  · next fresh =>
    rw [not_or, not_not] at fresh
    exact ⟨fresh.1, (Option.some.inj isIssue).symm⟩

/-- The next generation is the next odd number that has a successor. -/
theorem nextViewGeneration_spec {current next : UInt32}
    (isNext : nextViewGeneration current = some next) :
    current.toNat % 2 = 1 ∧ next.toNat = current.toNat + 2 ∧ next.toNat + 1 < 2 ^ 32 := by
  rw [nextViewGeneration] at isNext
  split at isNext
  · cases isNext
  · next odd =>
    rw [and_one_eq_zero_iff] at odd
    split at isNext
    · next below =>
      obtain ⟨small, notMax⟩ := below
      rw [Option.some.injEq] at isNext
      have sum : (current + 2).toNat = current.toNat + 2 := by
        rw [UInt32.toNat_add]
        exact Nat.mod_eq_of_lt small
      rw [Ne, eq_generationMax_iff, sum] at notMax
      rw [← isNext, sum]
      exact ⟨by omega, rfl, by omega⟩
    · cases isNext

/-! ### Ledgers -/

structure Ledger where
  headers : List KernelEndpointHeader
  counter : UInt32
  live : UInt16
  waiting : List Nat

namespace Ledger

def issue (ledger : Ledger) (index : Nat) (header : KernelEndpointHeader) (generation : UInt32) :
    Ledger :=
  { ledger with
    headers := ledger.headers.set index { header with viewGeneration := generation }
    counter := generation
    live := ledger.live + 1 }

def retire (ledger : Ledger) (index : Nat) (header : KernelEndpointHeader) : Ledger :=
  { ledger with
    headers := ledger.headers.set index
      { header with viewGeneration := header.viewGeneration + 1 }
    live := ledger.live - 1 }

/-- A ledger in order. The live views are counted and their generations differ; no generation is
ahead of the counter, but for the even one of a view that was just retired. -/
structure InOrder (publicGeneration : UInt32) (ledger : Ledger) : Prop where
  isPublic : publicGeneration ≠ 0
  generations : ∀ header ∈ ledger.headers, header.generation = publicGeneration
  roles : (ledger.headers.map (·.role)).Nodup
  odd : ledger.counter.toNat % 2 = 1
  below : ledger.counter.toNat + 1 < 2 ^ 32
  counted : ledger.live.toNat = ledger.headers.countP (·.isIssued)
  bounded : ∀ header ∈ ledger.headers,
    header.viewGeneration.toNat ≤ ledger.counter.toNat + 1
  distinct : ∀ (i j : Nat) (first second : KernelEndpointHeader), ledger.headers[i]? = some first →
    ledger.headers[j]? = some second → first.isIssued → second.isIssued →
    first.viewGeneration = second.viewGeneration → i = j
  dormant : ∀ index ∈ ledger.waiting, ∃ header, ledger.headers[index]? = some header ∧
    header.isIssued = false ∧ header.viewGeneration ≠ 0
  once : ledger.waiting.Nodup

/-- A handle that fits no header and comes before every generation to be issued. -/
def Spent (ledger : Ledger) (handle : EndpointHandle) : Prop :=
  handle.viewGeneration.toNat ≤ ledger.counter.toNat ∧
    ∀ header ∈ ledger.headers, handle.matchesHeader header = false

/-- What is spent stays spent. -/
def Follows (before after : Ledger) : Prop :=
  ∀ handle, before.Spent handle → after.Spent handle

theorem Follows.refl (ledger : Ledger) : ledger.Follows ledger :=
  fun _ spent => spent

theorem Follows.trans {first second third : Ledger} (before : first.Follows second)
    (after : second.Follows third) : first.Follows third :=
  fun handle spent => after handle (before handle spent)

theorem Follows.of_eq {before after : Ledger} (headers : after.headers = before.headers)
    (counter : after.counter = before.counter) : before.Follows after := by
  intro handle spent
  rw [Spent, headers, counter]
  exact spent

end Ledger

namespace EndpointHandle

variable {handle : EndpointHandle} {header : KernelEndpointHeader}

theorem odd (handle : EndpointHandle) : handle.viewGeneration.toNat % 2 = 1 :=
  (and_one_eq_one_iff _).mp handle.isIssued.1

/-- A handle fits the header of a live view with its generations. -/
theorem matchesHeader_iff : handle.matchesHeader header = true ↔
    header.isIssued = true ∧ header.generation = handle.generation ∧
      header.viewGeneration = handle.viewGeneration := by
  rw [matchesHeader, Bool.and_eq_true, beq_iff_eq, beq_iff_eq, KernelEndpointHeader.liveGeneration]
  constructor
  · rintro ⟨generation, viewGeneration⟩
    have isIssued : header.isIssued = true := by
      rw [header.isIssued_iff, viewGeneration]
      exact handle.odd
    rw [if_pos isIssued] at generation
    exact ⟨isIssued, generation, viewGeneration⟩
  · rintro ⟨isIssued, generation, viewGeneration⟩
    rw [if_pos isIssued]
    exact ⟨generation, viewGeneration⟩

theorem matchesHeader_eq_false_of_ne (differs : header.viewGeneration ≠ handle.viewGeneration) :
    handle.matchesHeader header = false := by
  rw [← Bool.not_eq_true, matchesHeader_iff]
  exact fun fits => differs fits.2.2

/-- Two handles of one live view are the same handle. -/
theorem eq_of_matchesHeader {other : EndpointHandle} (fits : handle.matchesHeader header = true)
    (otherFits : other.matchesHeader header = true) : handle = other := by
  obtain ⟨-, generation, viewGeneration⟩ := matchesHeader_iff.mp fits
  obtain ⟨-, otherGeneration, otherViewGeneration⟩ := matchesHeader_iff.mp otherFits
  cases handle
  cases other
  simp only [EndpointHandle.mk.injEq]
  exact ⟨generation.symm.trans otherGeneration, viewGeneration.symm.trans otherViewGeneration⟩

end EndpointHandle

namespace Ledger.InOrder

variable {publicGeneration : UInt32} {ledger : Ledger} {index : Nat}
  {header : KernelEndpointHeader}

section

variable (inOrder : ledger.InOrder publicGeneration)

include inOrder

theorem liveGeneration_eq_zero_iff (found : ledger.headers[index]? = some header) :
    header.liveGeneration = 0 ↔ header.isIssued = false := by
  have generation := inOrder.generations _ (mem_of_getElem? found)
  rw [KernelEndpointHeader.liveGeneration]
  cases header.isIssued with
  | true => simp [generation, inOrder.isPublic]
  | false => simp

/-- The generation of a live view is not ahead of the counter. -/
theorem issued_le (mem : header ∈ ledger.headers) (isIssued : header.isIssued = true) :
    header.viewGeneration.toNat ≤ ledger.counter.toNat := by
  have bounded := inOrder.bounded _ mem
  have odd := inOrder.odd
  rw [header.isIssued_iff] at isIssued
  omega

/-- Roles tell the views apart. -/
theorem index_eq_of_role {other : Nat} {second : KernelEndpointHeader}
    (found : ledger.headers[index]? = some header)
    (otherFound : ledger.headers[other]? = some second) (roles : header.role = second.role) :
    index = other := by
  obtain ⟨inBounds, rfl⟩ := List.getElem?_eq_some_iff.mp found
  obtain ⟨otherInBounds, rfl⟩ := List.getElem?_eq_some_iff.mp otherFound
  have injective := nodup_iff_injective_get.mp inOrder.roles
  have same : (⟨index, by simpa using inBounds⟩ : Fin (ledger.headers.map (·.role)).length) =
      ⟨other, by simpa using otherInBounds⟩ := injective (by simpa using roles)
  exact congrArg Fin.val same

/-- There are at most as many views as roles. -/
theorem length_le : ledger.headers.length ≤ 256 := by
  have distinct : ((ledger.headers.map (·.role)).map UInt8.toNat).Nodup :=
    inOrder.roles.map fun _ _ same => UInt8.toNat_inj.mp same
  have bounded : (ledger.headers.map (·.role)).map UInt8.toNat ⊆ List.range 256 := by
    intro role mem
    obtain ⟨byte, -, rfl⟩ := mem_map.mp mem
    exact mem_range.mpr byte.toNat_lt
  have le := (subperm_of_subset distinct bounded).length_le
  simpa using le

theorem live_le : ledger.live.toNat ≤ 256 := by
  rw [inOrder.counted]
  exact countP_le_length.trans inOrder.length_le

theorem live_pos (found : ledger.headers[index]? = some header)
    (isIssued : header.isIssued = true) : 0 < ledger.live.toNat := by
  rw [inOrder.counted, countP_pos_iff]
  exact ⟨header, mem_of_getElem? found, isIssued⟩

theorem not_waiting (found : ledger.headers[index]? = some header)
    (isIssued : header.isIssued = true) : index ∉ ledger.waiting := by
  intro waits
  obtain ⟨dormant, isDormant, notIssued, -⟩ := inOrder.dormant index waits
  rw [found, Option.some.injEq] at isDormant
  rw [isDormant, notIssued] at isIssued
  cases isIssued

end

/-- A header of a ledger in which one view was issued or retired. -/
theorem header_cases {old new : KernelEndpointHeader} {position : Nat}
    (isHeader : (ledger.headers.set index new)[position]? = some old) :
    position = index ∧ old = new ∨ position ≠ index ∧ ledger.headers[position]? = some old := by
  rw [getElem?_set] at isHeader
  split at isHeader
  · next same =>
    split at isHeader
    · exact .inl ⟨same.symm, (Option.some.inj isHeader).symm⟩
    · cases isHeader
  · next apart => exact .inr ⟨fun same => apart same.symm, isHeader⟩

/-- The roles of the views never change. -/
theorem roles_set (found : ledger.headers[index]? = some header) (generation : UInt32) :
    (ledger.headers.set index { header with viewGeneration := generation }).map (·.role) =
      ledger.headers.map (·.role) := by
  obtain ⟨inBounds, rfl⟩ := List.getElem?_eq_some_iff.mp found
  have same : (ledger.headers[index]).role =
      (ledger.headers.map (·.role)).get ⟨index, by simpa using inBounds⟩ := by simp
  rw [map_set, same]
  exact set_getElem_self _

/-- Nor does the generation of the allocation. -/
theorem generations_set (inOrder : ledger.InOrder publicGeneration)
    (found : ledger.headers[index]? = some header) (generation : UInt32) :
    ∀ other ∈ ledger.headers.set index { header with viewGeneration := generation },
      other.generation = publicGeneration := by
  intro other mem
  rcases mem_or_eq_of_mem_set mem with old | isNew
  · exact inOrder.generations _ old
  · rw [isNew]
    exact inOrder.generations header (mem_of_getElem? found)

/-- The views that wait are other ones. -/
theorem dormant_set (inOrder : ledger.InOrder publicGeneration)
    (notWaiting : index ∉ ledger.waiting) (new : KernelEndpointHeader) :
    ∀ other ∈ ledger.waiting, ∃ old, (ledger.headers.set index new)[other]? = some old ∧
      old.isIssued = false ∧ old.viewGeneration ≠ 0 := by
  intro other waits
  obtain ⟨old, isOld, notLive⟩ := inOrder.dormant other waits
  have apart : index ≠ other := fun same => notWaiting (same ▸ waits)
  exact ⟨old, by rw [getElem?_set_ne apart]; exact isOld, notLive⟩

/-- Issue a dormant view with the generation behind the counter. -/
theorem issue (inOrder : ledger.InOrder publicGeneration)
    (found : ledger.headers[index]? = some header) (notIssued : header.isIssued = false)
    (notWaiting : index ∉ ledger.waiting)
    (isNext : nextViewGeneration ledger.counter = some generation) :
    (ledger.issue index header generation).InOrder publicGeneration := by
  obtain ⟨odd, sum, below⟩ := nextViewGeneration_spec isNext
  have inBounds : index < ledger.headers.length := (List.getElem?_eq_some_iff.mp found).1
  have isHeader : ledger.headers[index] = header := (List.getElem?_eq_some_iff.mp found).2
  have isIssued : ({ header with viewGeneration := generation } : KernelEndpointHeader).isIssued =
      true := by
    rw [KernelEndpointHeader.isIssued_iff, sum]
    omega
  -- A live view keeps its generation, and it comes before the new one.
  have older : ∀ (other : Nat) (old : KernelEndpointHeader), ledger.headers[other]? = some old →
      old.isIssued = true → old.viewGeneration ≠ generation := by
    intro other old isOld issued same
    have le := inOrder.issued_le (mem_of_getElem? isOld) issued
    rw [same, sum] at le
    omega
  exact {
    isPublic := inOrder.isPublic
    generations := inOrder.generations_set found generation
    roles := by
      show ((ledger.headers.set index _).map (·.role)).Nodup
      rw [roles_set found]
      exact inOrder.roles
    odd := by
      show generation.toNat % 2 = 1
      omega
    below := below
    counted := by
      have small := inOrder.live_le
      show (ledger.live + 1).toNat = (ledger.headers.set index _).countP _
      rw [countP_set inBounds, isHeader, notIssued, isIssued, ← inOrder.counted,
        UInt16.toNat_add]
      simp only [UInt16.toNat_one, Bool.false_eq_true, if_false, if_true]
      omega
    bounded := by
      intro other mem
      show _ ≤ generation.toNat + 1
      rcases mem_or_eq_of_mem_set mem with old | isNew
      · have := inOrder.bounded _ old
        omega
      · rw [isNew]
        exact Nat.le_succ _
    distinct := by
      intro i j first second isFirst isSecond firstIssued secondIssued same
      rcases header_cases isFirst with ⟨rfl, rfl⟩ | ⟨-, firstOld⟩
      · rcases header_cases isSecond with ⟨rfl, -⟩ | ⟨-, secondOld⟩
        · rfl
        · exact absurd same.symm (older j second secondOld secondIssued)
      · rcases header_cases isSecond with ⟨rfl, rfl⟩ | ⟨-, secondOld⟩
        · exact absurd same (older i first firstOld firstIssued)
        · exact inOrder.distinct i j first second firstOld secondOld firstIssued secondIssued same
    dormant := inOrder.dormant_set notWaiting _
    once := inOrder.once }

/-- A new generation fits no old handle. -/
theorem follows_issue (isNext : nextViewGeneration ledger.counter = some generation) :
    ledger.Follows (ledger.issue index header generation) := by
  obtain ⟨-, sum, -⟩ := nextViewGeneration_spec isNext
  rintro handle ⟨le, fitsNone⟩
  refine ⟨?_, ?_⟩
  · show _ ≤ generation.toNat
    omega
  · intro other mem
    rcases mem_or_eq_of_mem_set mem with old | isNew
    · exact fitsNone _ old
    · apply EndpointHandle.matchesHeader_eq_false_of_ne
      rw [isNew]
      intro same
      have : generation.toNat = handle.viewGeneration.toNat := congrArg UInt32.toNat same
      omega

section

variable (inOrder : ledger.InOrder publicGeneration) (found : ledger.headers[index]? = some header)
  (isIssued : header.isIssued = true)

include inOrder found isIssued

/-- The generation of a live view has a successor. -/
theorem toNat_succ : (header.viewGeneration + 1).toNat = header.viewGeneration.toNat + 1 := by
  have le := inOrder.issued_le (mem_of_getElem? found) isIssued
  have below := inOrder.below
  rw [UInt32.toNat_add]
  refine Nat.mod_eq_of_lt ?_
  show header.viewGeneration.toNat + 1 < 2 ^ 32
  omega

theorem not_isIssued_succ :
    ({ header with viewGeneration := header.viewGeneration + 1 } :
      KernelEndpointHeader).isIssued = false := by
  have odd := header.isIssued_iff.mp isIssued
  rw [KernelEndpointHeader.isIssued_eq_false_iff, inOrder.toNat_succ found isIssued]
  omega

/-- Retire a live view. -/
theorem retire : (ledger.retire index header).InOrder publicGeneration := by
  have inBounds : index < ledger.headers.length := (List.getElem?_eq_some_iff.mp found).1
  have isHeader : ledger.headers[index] = header := (List.getElem?_eq_some_iff.mp found).2
  have notIssued := inOrder.not_isIssued_succ found isIssued
  exact {
    isPublic := inOrder.isPublic
    generations := inOrder.generations_set found _
    roles := by
      show ((ledger.headers.set index _).map (·.role)).Nodup
      rw [roles_set found]
      exact inOrder.roles
    odd := inOrder.odd
    below := inOrder.below
    counted := by
      have pos : 1 ≤ ledger.live :=
        UInt16.le_iff_toNat_le.mpr (inOrder.live_pos found isIssued)
      show (ledger.live - 1).toNat = (ledger.headers.set index _).countP _
      rw [countP_set inBounds, isHeader, notIssued, isIssued, ← inOrder.counted,
        UInt16.toNat_sub_of_le _ _ pos]
      simp
    bounded := by
      intro other mem
      show _ ≤ ledger.counter.toNat + 1
      rcases mem_or_eq_of_mem_set mem with old | isNew
      · exact inOrder.bounded _ old
      · have le := inOrder.issued_le (mem_of_getElem? found) isIssued
        rw [isNew, inOrder.toNat_succ found isIssued]
        omega
    distinct := by
      intro i j first second isFirst isSecond firstIssued secondIssued same
      rcases header_cases isFirst with ⟨-, rfl⟩ | ⟨-, firstOld⟩
      · rw [notIssued] at firstIssued
        cases firstIssued
      · rcases header_cases isSecond with ⟨-, rfl⟩ | ⟨-, secondOld⟩
        · rw [notIssued] at secondIssued
          cases secondIssued
        · exact inOrder.distinct i j first second firstOld secondOld firstIssued secondIssued same
    dormant := inOrder.dormant_set (inOrder.not_waiting found isIssued) _
    once := inOrder.once }

/-- A retired header fits no handle. -/
theorem fits_none (handle : EndpointHandle) :
    handle.matchesHeader { header with viewGeneration := header.viewGeneration + 1 } = false := by
  rw [← Bool.not_eq_true, EndpointHandle.matchesHeader_iff,
    inOrder.not_isIssued_succ found isIssued]
  simp

theorem follows_retire : ledger.Follows (ledger.retire index header) := by
  rintro handle ⟨le, fitsNone⟩
  refine ⟨le, ?_⟩
  intro other mem
  rcases mem_or_eq_of_mem_set mem with old | isNew
  · exact fitsNone _ old
  · rw [isNew]
    exact inOrder.fits_none found isIssued handle

end

/-- The handle of a retired view is spent: no other live view has its generation. -/
theorem spent_retire (inOrder : ledger.InOrder publicGeneration)
    (found : ledger.headers[index]? = some header) {handle : EndpointHandle}
    (fits : handle.matchesHeader header = true) : (ledger.retire index header).Spent handle := by
  obtain ⟨isIssued, -, generation⟩ := EndpointHandle.matchesHeader_iff.mp fits
  refine ⟨generation ▸ inOrder.issued_le (mem_of_getElem? found) isIssued, ?_⟩
  intro other mem
  obtain ⟨position, isOther⟩ := mem_iff_getElem?.mp mem
  rcases header_cases isOther with ⟨-, rfl⟩ | ⟨apart, isOld⟩
  · exact inOrder.fits_none found isIssued handle
  · rw [← Bool.not_eq_true, EndpointHandle.matchesHeader_iff]
    rintro ⟨otherIssued, -, otherGeneration⟩
    exact apart (inOrder.distinct _ _ _ _ isOld found otherIssued isIssued
      (otherGeneration.trans generation.symm))

/-- A retired view waits for the end of its I/O. -/
theorem wait (inOrder : ledger.InOrder publicGeneration)
    (found : ledger.headers[index]? = some header) (notIssued : header.isIssued = false)
    (wasIssued : header.viewGeneration ≠ 0) (notWaiting : index ∉ ledger.waiting) :
    ({ ledger with waiting := index :: ledger.waiting } : Ledger).InOrder publicGeneration :=
  { inOrder with
    dormant := by
      intro other waits
      rcases mem_cons.mp waits with rfl | earlier
      · exact ⟨header, found, notIssued, wasIssued⟩
      · exact inOrder.dormant other earlier
    once := nodup_cons.mpr ⟨notWaiting, inOrder.once⟩ }

/-- No view waits behind the end of the I/O of all that did. -/
theorem settle (inOrder : ledger.InOrder publicGeneration) :
    ({ ledger with waiting := [] } : Ledger).InOrder publicGeneration :=
  { inOrder with
    dormant := nofun
    once := nodup_nil }

end Ledger.InOrder

end Hibana
