/-
This file says what the operations of the association table leave alone: they write
inside the block of the table only, and the requests of sessions change no more of
the lanes than the memory.
-/

import HibanaChoreography.Rendezvous.AssociationStorage

namespace Hibana

open Outcome ByteMemory

namespace AssocTable

variable {table : AssocTable} {memory after : Memory}

/-- A memory that differs in the block of a table only. -/
def WritesInside (table : AssocTable) (memory after : Memory) : Prop :=
  ∀ place, table.Outside place → after place = memory place

namespace WritesInside

theorem refl (table : AssocTable) (memory : Memory) : table.WritesInside memory memory :=
  fun _ _ => rfl

theorem trans {middle : Memory} (first : table.WritesInside memory middle)
    (second : table.WritesInside middle after) : table.WritesInside memory after :=
  fun place outside => (second place outside).trans (first place outside)

theorem agree (writes : table.WritesInside memory after) (stored : table.Stored) :
    AgreeOutside table.entrySids (table.entrySids + blockBytes table.assocSlots) memory after :=
  fun place outside => writes place (by rw [Outside, stored.stop]; exact outside)

end WritesInside

variable (laid : table.Laid)

include laid

variable {index : Nat} {sid : UInt32} {lane : UInt8} {cause : SessionFaultKind}

theorem writeEntry_inside (inside : index < table.assocSlots) (memory : Memory)
    (entry : AssocEntry) :
    table.WritesInside memory (table.writeEntry memory index entry) :=
  fun _ outside => writeEntry_of_outside laid inside outside

theorem writeState_inside (inside : index < table.assocSlots) (memory : Memory) (state : UInt16) :
    table.WritesInside memory (table.writeState memory index state) := by
  intro place outside
  have lanes := laid.lanes
  have states := laid.states
  rw [Outside] at outside
  rw [word_size] at lanes
  rw [byte_size] at states
  rw [halfword_size] at outside
  exact write_of_outside _ _ _ (by rw [halfword_size]; omega)

omit laid in
theorem findEntryByOffset_lt {offset : UInt8}
    (isFound : table.findEntryByOffset memory offset sid = some index) :
    index < table.assocSlots := by
  obtain ⟨inside, _⟩ := List.findIdx?_eq_some_iff_getElem.mp isFound
  rwa [length_entries] at inside

omit laid in
theorem entryIndex_lt (isIndex : table.entryIndex memory lane sid = .ok index) :
    index < table.assocSlots := by
  unfold entryIndex at isIndex
  split at isIndex
  · cases isIndex
  · split at isIndex
    · cases isIndex
    · rename_i isFound
      exact Except.ok.inj isIndex ▸ findEntryByOffset_lt isFound

theorem register_inside {registered : Bool}
    (isOk : table.register memory lane sid = .ok (registered, after)) :
    table.WritesInside memory after := by
  unfold register at isOk
  split at isOk
  · cases isOk
  · split at isOk
    · cases isOk
    · split at isOk
      · cases isOk
        exact .refl table memory
      · rename_i index isVacant
        cases isOk
        obtain ⟨inside, _⟩ := List.findIdx?_eq_some_iff_getElem.mp isVacant
        rw [length_entries] at inside
        exact writeEntry_inside laid inside memory _

theorem increment_inside {count : Option UInt16}
    (isOk : table.increment memory lane sid = .ok (count, after)) :
    table.WritesInside memory after := by
  obtain ⟨index, isIndex, isOk⟩ := Run.of_bind isOk
  obtain ⟨next, _, isOk⟩ := Run.of_bind isOk
  cases next with
  | none =>
    cases isOk
    exact .refl table memory
  | some next =>
    obtain ⟨state, _, isOk⟩ := Run.of_bind isOk
    cases isOk
    exact writeState_inside laid (entryIndex_lt isIndex) memory state

theorem removeEntry_inside (isOk : table.removeEntry memory index = .ok after) :
    table.WritesInside memory after := by
  unfold removeEntry at isOk
  split at isOk
  · cases isOk
  · rename_i inside
    split at isOk
    · cases isOk
    · rename_i last isLast
      have isInside := List.mem_of_find?_eq_some isLast
      rw [List.mem_reverse, List.mem_range] at isInside
      rw [← Except.ok.inj isOk]
      refine WritesInside.trans ?_ (writeEntry_inside laid isInside _ _)
      split
      · exact .refl table memory
      · exact writeEntry_inside laid (Nat.lt_of_not_le inside) memory _

theorem decrement_inside {count : UInt16}
    (isOk : table.decrement memory lane sid = .ok (count, after)) :
    table.WritesInside memory after := by
  obtain ⟨index, isIndex, isOk⟩ := Run.of_bind isOk
  dsimp only at isOk
  split at isOk
  · cases isOk
  · split at isOk
    · obtain ⟨removed, isRemoved, isOk⟩ := Run.of_bind isOk
      cases isOk
      exact removeEntry_inside laid isRemoved
    · obtain ⟨state, _, isOk⟩ := Run.of_bind isOk
      cases isOk
      exact writeState_inside laid (entryIndex_lt isIndex) memory state

theorem poisonEntry_inside (inside : index < table.assocSlots)
    (isOk : table.poisonEntry sid cause memory index = .ok after) :
    table.WritesInside memory after := by
  unfold poisonEntry at isOk
  dsimp only at isOk
  split at isOk
  · obtain ⟨state, _, isOk⟩ := Run.of_bind isOk
    rw [← Except.ok.inj isOk]
    exact writeState_inside laid inside memory state
  · rw [← Except.ok.inj isOk]
    exact .refl table memory

theorem poisonEntries_inside {indexes : List Nat}
    (inside : ∀ index ∈ indexes, index < table.assocSlots)
    (isOk : indexes.foldlM (table.poisonEntry sid cause) memory = .ok after) :
    table.WritesInside memory after := by
  induction indexes generalizing memory with
  | nil => exact Except.ok.inj isOk ▸ .refl table memory
  | cons index rest hyp =>
    rw [List.forall_mem_cons] at inside
    rw [List.foldlM_cons] at isOk
    obtain ⟨middle, isMiddle, isOk⟩ := Run.of_bind isOk
    exact (poisonEntry_inside laid inside.1 isMiddle).trans (hyp inside.2 isOk)

theorem poisonSession_inside {kind : SessionFaultKind}
    (isOk : table.poisonSession memory sid cause = .ok (kind, after)) :
    table.WritesInside memory after := by
  obtain ⟨fault, _, isOk⟩ := Run.of_bind isOk
  cases fault with
  | some existing =>
    cases isOk
    exact .refl table memory
  | none =>
    obtain ⟨poisoned, isPoisoned, isOk⟩ := Run.of_bind isOk
    cases isOk
    exact poisonEntries_inside laid (fun index mem => List.mem_range.mp mem) isPoisoned

end AssocTable

namespace LaneStore

variable {store next : LaneStore}

/-- The requests of sessions change the memory of the lanes, inside the block of the table. -/
def ChangesEntries (store next : LaneStore) : Prop :=
  ∃ memory, next = { store with memory } ∧ store.assoc.WritesInside store.memory memory

theorem ChangesEntries.refl (store : LaneStore) : store.ChangesEntries store :=
  ⟨store.memory, rfl, .refl _ _⟩

variable (laid : store.assoc.Laid)

include laid

variable {sid : UInt32}

theorem activateLaneAttachment_changes {lane : UInt8} {result : Except RendezvousError Unit}
    (isOk : store.activateLaneAttachment sid lane = .ok (result, next)) :
    store.ChangesEntries next := by
  unfold activateLaneAttachment at isOk
  split at isOk
  · cases isOk
    exact .refl store
  · obtain ⟨fault, _, isOk⟩ := Run.of_bind isOk
    split at isOk
    · cases isOk
      exact .refl store
    · split at isOk
      · obtain ⟨⟨count, memory⟩, isCount, isOk⟩ := Run.of_bind isOk
        refine ⟨memory, ?_, AssocTable.increment_inside laid isCount⟩
        cases count <;> exact (Prod.mk.inj (Except.ok.inj isOk)).2.symm
      · obtain ⟨⟨registered, memory⟩, isRegistered, isOk⟩ := Run.of_bind isOk
        refine ⟨memory, ?_, AssocTable.register_inside laid isRegistered⟩
        cases registered <;> exact (Prod.mk.inj (Except.ok.inj isOk)).2.symm

theorem releaseLane_changes {lane : UInt8} {release : LaneRelease}
    (isOk : store.releaseLane sid lane = .ok (release, next)) : store.ChangesEntries next := by
  obtain ⟨⟨remaining, memory⟩, isRemaining, isOk⟩ := Run.of_bind isOk
  exact ⟨memory, (Prod.mk.inj (Except.ok.inj isOk)).2.symm,
    AssocTable.decrement_inside laid isRemaining⟩

theorem poisonSession_changes {cause kind : SessionFaultKind}
    (isOk : store.poisonSession sid cause = .ok (kind, next)) : store.ChangesEntries next := by
  obtain ⟨⟨fault, memory⟩, isFault, isOk⟩ := Run.of_bind isOk
  exact ⟨memory, (Prod.mk.inj (Except.ok.inj isOk)).2.symm,
    AssocTable.poisonSession_inside laid isFault⟩

end LaneStore

end Hibana
