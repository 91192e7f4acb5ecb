/-
This file is about the columns of the association table in memory.

The three columns lie one behind the other in the storage block. A write to an
entry changes this entry only, and a write inside the block leaves the memory
around it. A block that is moved, or shrunk in place, keeps its entries.
-/

import HibanaChoreography.Rendezvous.Association

namespace Hibana

open Outcome ByteMemory List

namespace AssocTable

/-- The columns lie one behind the other. -/
structure Laid (table : AssocTable) : Prop where
  lanes : table.entrySids + table.assocSlots * word.size ≤ table.entryLanes
  states : table.entryLanes + table.assocSlots * byte.size ≤ table.entryStates

variable {table : AssocTable} {memory : Memory} {index position : Nat}

@[simp] theorem length_entries (table : AssocTable) (memory : Memory) :
    (table.entries memory).length = table.assocSlots := by
  rw [entries, length_map, length_range]

theorem getElem_entries (inside : index < (table.entries memory).length) :
    (table.entries memory)[index] = table.entryAt memory index := by
  simp only [entries, getElem_map, getElem_range]

variable {entry : AssocEntry} {state : UInt16} {assocSlots : Nat}

theorem mem_entries :
    entry ∈ table.entries memory ↔
      ∃ index < table.assocSlots, table.entryAt memory index = entry := by
  rw [entries, mem_map]
  simp only [mem_range]

section

variable (laid : table.Laid) (inside : index < table.assocSlots)

include laid inside

/-- The entries of a table do not depend on memory elsewhere. -/
theorem entryAt_congr {other : Memory}
    (same : ∀ place, table.entrySids ≤ place →
      place < table.entryStates + table.assocSlots * halfword.size → other place = memory place) :
    table.entryAt other index = table.entryAt memory index := by
  have lanes := laid.lanes
  have states := laid.states
  simp only [word_size, byte_size, halfword_size] at lanes states same
  unfold entryAt
  simp only [word_size, byte_size, halfword_size]
  congr 1
  · exact read_congr fun offset small => same _ (by omega) (by
      have : offset < 4 := small
      omega)
  · exact read_congr fun offset small => same _ (by omega) (by
      have : offset < 1 := small
      omega)
  · exact read_congr fun offset small => same _ (by omega) (by
      have : offset < 2 := small
      omega)

theorem writeState_of_outside {place : Nat}
    (outside : place < table.entrySids ∨
      table.entryStates + table.assocSlots * halfword.size ≤ place) :
    table.writeState memory index state place = memory place := by
  have lanes := laid.lanes
  have states := laid.states
  simp only [word_size, byte_size, halfword_size] at lanes states outside
  refine write_of_outside halfword memory state ?_
  simp only [halfword_size]
  omega

theorem writeEntry_of_outside {place : Nat}
    (outside : place < table.entrySids ∨
      table.entryStates + table.assocSlots * halfword.size ≤ place) :
    table.writeEntry memory index entry place = memory place := by
  have lanes := laid.lanes
  have states := laid.states
  rw [writeEntry, writeState_of_outside laid inside outside]
  simp only [word_size, byte_size, halfword_size] at lanes states outside
  rw [write_of_outside word _ _ (by simp only [word_size]; omega),
    write_of_outside byte _ _ (by simp only [byte_size]; omega)]

theorem entryAt_writeState_self :
    table.entryAt (table.writeState memory index state) index =
      { table.entryAt memory index with state } := by
  have lanes := laid.lanes
  have states := laid.states
  simp only [word_size, byte_size] at lanes states
  unfold entryAt writeState
  rw [read_write_self, read_write_of_disjoint (by simp only [word_size, halfword_size]; omega),
    read_write_of_disjoint (by simp only [byte_size, halfword_size]; omega)]

theorem entryAt_writeState_of_ne (isPosition : position < table.assocSlots)
    (ne : position ≠ index) :
    table.entryAt (table.writeState memory index state) position =
      table.entryAt memory position := by
  have lanes := laid.lanes
  have states := laid.states
  simp only [word_size, byte_size] at lanes states
  unfold entryAt writeState
  rw [read_write_of_disjoint (by simp only [word_size, halfword_size]; omega),
    read_write_of_disjoint (by simp only [byte_size, halfword_size]; omega),
    read_write_of_disjoint (by simp only [halfword_size]; omega)]

theorem entryAt_writeEntry_self :
    table.entryAt (table.writeEntry memory index entry) index = entry := by
  have lanes := laid.lanes
  have states := laid.states
  rw [writeEntry, entryAt_writeState_self laid inside]
  simp only [word_size, byte_size] at lanes states
  unfold entryAt
  rw [read_write_self, read_write_of_disjoint (by simp only [word_size, byte_size]; omega),
    read_write_self]

theorem entryAt_writeEntry_of_ne (isPosition : position < table.assocSlots)
    (ne : position ≠ index) :
    table.entryAt (table.writeEntry memory index entry) position =
      table.entryAt memory position := by
  have lanes := laid.lanes
  have states := laid.states
  rw [writeEntry, entryAt_writeState_of_ne laid inside isPosition ne]
  simp only [word_size, byte_size] at lanes states
  unfold entryAt
  simp only [word_size, byte_size, halfword_size]
  rw [read_write_of_disjoint (by simp only [word_size]; omega),
    read_write_of_disjoint (by simp only [word_size, byte_size]; omega),
    read_write_of_disjoint (by simp only [word_size, byte_size]; omega),
    read_write_of_disjoint (by simp only [byte_size]; omega),
    read_write_of_disjoint (by simp only [word_size, halfword_size]; omega),
    read_write_of_disjoint (by simp only [byte_size, halfword_size]; omega)]

/-- A write to an entry sets the list of entries there. -/
theorem entries_writeEntry :
    table.entries (table.writeEntry memory index entry) =
      (table.entries memory).set index entry := by
  refine ext_getElem (by simp) fun position isPosition _ => ?_
  rw [length_entries] at isPosition
  rw [getElem_entries, getElem_set, getElem_entries]
  split
  · rename_i same
    rw [← same, entryAt_writeEntry_self laid inside]
  · rename_i ne
    rw [entryAt_writeEntry_of_ne laid inside isPosition (Ne.symm ne)]

/-- A write to the state of an entry sets its state in the list of entries. -/
theorem entries_writeState :
    table.entries (table.writeState memory index state) =
      (table.entries memory).set index { table.entryAt memory index with state } := by
  refine ext_getElem (by simp) fun position isPosition _ => ?_
  rw [length_entries] at isPosition
  rw [getElem_entries, getElem_set, getElem_entries]
  split
  · rename_i same
    rw [← same, entryAt_writeState_self laid inside]
  · rename_i ne
    rw [entryAt_writeState_of_ne laid inside isPosition (Ne.symm ne)]

end

/-! ### Storage blocks -/

/-- The size of a storage block: the columns, and the padding in front of the states. -/
def blockBytes (assocSlots : Nat) : Nat := 7 * assocSlots + assocSlots % 2

/-- A block of the association table is at least as large as its alignment. -/
theorem storageAlign_le (pos : 0 < assocSlots) : storageAlign ≤ blockBytes assocSlots := by
  unfold storageAlign blockBytes
  omega

/-- A table with the columns of one storage block. -/
structure Stored (table : AssocTable) : Prop where
  lanes : table.entryLanes = table.entrySids + 4 * table.assocSlots
  states : table.entryStates = table.entrySids + 5 * table.assocSlots + table.assocSlots % 2

theorem Stored.laid (stored : table.Stored) : table.Laid where
  lanes := by
    rw [stored.lanes, word_size]
    omega
  states := by
    rw [stored.lanes, stored.states, byte_size]
    omega

/-- The end of the state column is the end of the block. -/
theorem Stored.stop (stored : table.Stored) :
    table.entryStates + table.assocSlots * halfword.size =
      table.entrySids + blockBytes table.assocSlots := by
  rw [stored.states, blockBytes, halfword_size]
  omega

theorem storageBytes_eq {usizeMax : Nat} (pos : 0 < assocSlots)
    (fits : blockBytes assocSlots ≤ usizeMax) :
    storageBytes usizeMax assocSlots = .ok (blockBytes assocSlots) := by
  unfold blockBytes at fits ⊢
  simp only [storageBytes, word_size, byte_size, halfword_size]
  rw [Layout.mul_ok (by omega), Run.bind_ok, Layout.alignUp_ok (by decide) (by omega),
    Run.bind_ok, Layout.mul_ok (by omega), Run.bind_ok, Layout.alignDown]
  rw [Layout.add_ok (by omega), Run.bind_ok, Layout.alignUp_ok (by decide) (by omega),
    Run.bind_ok, Layout.mul_ok (by omega), Run.bind_ok, Layout.alignDown]
  rw [Layout.add_ok (by omega)]
  congr 1
  omega

theorem storageParts_eq {usizeMax storage : Nat} (even : storage % 2 = 0)
    (pos : 0 < assocSlots) (fits : storage + blockBytes assocSlots ≤ usizeMax) :
    storageParts usizeMax storage assocSlots = .ok ⟨storage, storage + 4 * assocSlots,
      storage + 5 * assocSlots + assocSlots % 2⟩ := by
  unfold blockBytes at fits
  simp only [storageParts, word_size, byte_size]
  rw [Layout.mul_ok (by omega), Run.bind_ok, Layout.add_ok (by omega), Run.bind_ok,
    Layout.alignUp_ok (by decide) (by omega), Run.bind_ok, Layout.alignDown,
    Layout.sub_ok (by omega), Run.bind_ok, Layout.mul_ok (by omega), Run.bind_ok]
  rw [Layout.add_ok (by omega), Run.bind_ok, Layout.add_ok (by omega), Run.bind_ok,
    Layout.alignUp_ok (by decide) (by omega), Run.bind_ok, Layout.alignDown,
    Layout.sub_ok (by omega), Run.bind_ok]
  refine congrArg Except.ok ?_
  rw [AssocStorageParts.mk.injEq]
  refine ⟨rfl, ?_, ?_⟩
  · omega
  · omega

def parts (table : AssocTable) : AssocStorageParts :=
  ⟨table.entrySids, table.entryLanes, table.entryStates⟩

/-- An address outside the storage block of a table. -/
def Outside (table : AssocTable) (place : Nat) : Prop :=
  place < table.entrySids ∨ table.entryStates + table.assocSlots * halfword.size ≤ place

/-- Fresh columns hold empty entries. -/
theorem clearEntries_spec (laid : table.Laid) (memory : Memory) :
    table.entries (clearEntries table.parts memory table.assocSlots) =
        List.replicate table.assocSlots AssocEntry.empty ∧
      ∀ place, table.Outside place →
        clearEntries table.parts memory table.assocSlots place = memory place := by
  have prefixes : ∀ count ≤ table.assocSlots,
      (∀ index < count, table.entryAt ((List.range count).foldl
        (table.writeEntry · · AssocEntry.empty) memory) index = AssocEntry.empty) ∧
      ∀ place, table.Outside place →
        (List.range count).foldl (table.writeEntry · · AssocEntry.empty) memory place =
          memory place := by
    intro count fits
    induction count with
    | zero => exact ⟨fun index inside => absurd inside (Nat.not_lt_zero _), fun _ _ => rfl⟩
    | succ count hyp =>
      obtain ⟨cleared, outside⟩ := hyp (Nat.le_of_succ_le fits)
      rw [range_succ, foldl_append, foldl_cons, foldl_nil]
      refine ⟨fun index inside => ?_, fun place isOutside => ?_⟩
      · rcases Nat.lt_succ_iff_lt_or_eq.mp inside with before | rfl
        · rw [entryAt_writeEntry_of_ne laid fits (by omega) (by omega), cleared index before]
        · exact entryAt_writeEntry_self laid fits
      · rw [writeEntry_of_outside laid fits isOutside, outside place isOutside]
  obtain ⟨cleared, outside⟩ := prefixes table.assocSlots le_rfl
  refine ⟨ext_getElem (by simp) fun index inside _ => ?_, outside⟩
  rw [length_entries] at inside
  rw [getElem_entries, getElem_replicate]
  exact cleared index inside

/-- The entry with the offset of its lane in another range. -/
def movedEntry (source replacement : AssocTable) (entry : AssocEntry) : AssocEntry :=
  { entry with
    lane := UInt8.ofNat (source.laneBase + entry.lane.toNat - replacement.laneBase) }

variable {source replacement : AssocTable}

theorem movedEntry_of_base (sameBase : source.laneBase = replacement.laneBase)
    (entry : AssocEntry) : movedEntry source replacement entry = entry := by
  rw [movedEntry, sameBase, Nat.add_sub_cancel_left, UInt8.ofNat_toNat]

/-- The lane of an entry lies in the range of another table. -/
def LaneFits (source replacement : AssocTable) (entry : AssocEntry) : Prop :=
  replacement.laneBase ≤ source.laneBase + entry.lane.toNat ∧
    source.laneBase + entry.lane.toNat - replacement.laneBase < replacement.laneSlots ∧
    source.laneBase + entry.lane.toNat - replacement.laneBase ≤ 255

/-- The live entries are copied to the front of the replacement. -/
theorem copyEntries_spec (sourceLaid : source.Laid) (laid : replacement.Laid)
    (disjoint : ∀ place, source.entrySids ≤ place →
      place < source.entryStates + source.assocSlots * halfword.size → replacement.Outside place)
    (indexes : List Nat) (target : Nat) (memory original : Memory)
    (inside : ∀ index ∈ indexes, index < source.assocSlots)
    (same : ∀ place, replacement.Outside place → memory place = original place)
    (fit : ∀ entry ∈ (indexes.map (source.entryAt original)).filter AssocEntry.isLive,
      LaneFits source replacement entry)
    (room : target + ((indexes.map (source.entryAt original)).filter AssocEntry.isLive).length ≤
      replacement.assocSlots) :
    ∃ after, copyEntries source replacement indexes target memory = .ok after ∧
      replacement.entries after = (replacement.entries memory).take target ++
        (((indexes.map (source.entryAt original)).filter AssocEntry.isLive).map
          (movedEntry source replacement) ++
        (replacement.entries memory).drop (target +
          ((indexes.map (source.entryAt original)).filter AssocEntry.isLive).length)) ∧
      ∀ place, replacement.Outside place → after place = original place := by
  induction indexes generalizing target memory with
  | nil =>
    refine ⟨memory, rfl, ?_, same⟩
    simp only [map_nil, filter_nil, length_nil, Nat.add_zero, nil_append,
      take_append_drop]
  | cons index indexes hyp =>
    have isEntry : source.entryAt memory index = source.entryAt original index :=
      entryAt_congr sourceLaid (inside index mem_cons_self) fun place low high =>
        same place (disjoint place low high)
    rw [copyEntries]
    rw [isEntry]
    have restInside := fun other mem => inside other (mem_cons_of_mem index mem)
    cases isLive : (source.entryAt original index).isLive with
    | false =>
      rw [map_cons, filter_cons_of_neg (ne_true_of_eq_false isLive)] at fit room ⊢
      rw [if_pos (by decide)]
      exact hyp target memory restInside same fit room
    | true =>
      rw [map_cons, filter_cons_of_pos isLive] at fit room ⊢
      rw [length_cons] at room ⊢
      obtain ⟨low, high, small⟩ := fit _ mem_cons_self
      rw [if_neg (by decide), if_neg (Nat.not_lt.mpr low), if_neg (by omega)]
      have isTarget : target < replacement.assocSlots := by omega
      obtain ⟨after, isAfter, isEntries, outside⟩ := hyp (target + 1)
        (replacement.writeEntry memory target
          (movedEntry source replacement (source.entryAt original index))) restInside
        (fun place isOutside => by
          rw [writeEntry_of_outside laid isTarget isOutside, same place isOutside])
        (fun entry mem => fit entry (mem_cons_of_mem _ mem)) (by omega)
      refine ⟨after, isAfter, ?_, outside⟩
      have isLength : target < (replacement.entries memory).length := by
        rwa [length_entries]
      rw [isEntries, entries_writeEntry laid isTarget, drop_set_of_lt (by omega),
        take_succ_eq_append_getElem (by rwa [length_set]), getElem_set_self,
        take_set_of_le le_rfl, map_cons, append_assoc, cons_append,
        cons_append, nil_append, Nat.add_right_comm, Nat.add_assoc]

/-- A block with the same bytes at another address has the same entries. -/
theorem entries_relocate {other : AssocTable} {after : Memory} (stored : table.Stored)
    (otherStored : other.Stored) (sameSlots : other.assocSlots = table.assocSlots)
    (same : SameBytes memory table.entrySids after other.entrySids (blockBytes table.assocSlots)) :
    other.entries after = table.entries memory := by
  unfold blockBytes at same
  unfold entries
  rw [sameSlots]
  refine map_congr_left fun index inside => ?_
  have isInside := mem_range.mp inside
  have place : ∀ offset, index * 4 + offset < 7 * table.assocSlots + table.assocSlots % 2 →
      after (other.entrySids + index * 4 + offset) =
        memory (table.entrySids + index * 4 + offset) :=
    fun offset small => by
      rw [Nat.add_assoc, Nat.add_assoc]
      exact same _ small
  unfold entryAt
  rw [stored.lanes, stored.states, otherStored.lanes, otherStored.states, sameSlots]
  simp only [word_size, byte_size, halfword_size]
  congr 1
  · refine read_congr fun offset small => ?_
    rw [word_size] at small
    exact place offset (by omega)
  · refine read_congr fun offset small => ?_
    rw [byte_size] at small
    have moved := same (4 * table.assocSlots + index * 1 + offset) (by omega)
    simpa only [Nat.add_assoc] using moved
  · refine read_congr fun offset small => ?_
    rw [halfword_size] at small
    have moved := same (5 * table.assocSlots + table.assocSlots % 2 + index * 2 + offset) (by omega)
    simpa only [Nat.add_assoc] using moved

/-- A table whose block is shrunk in place keeps its first entries. -/
theorem shrink_entries {small : AssocTable} {few : Nat} (stored : table.Stored)
    (smallStored : small.Stored) (sameBlock : small.entrySids = table.entrySids)
    (isFew : small.assocSlots = few) (fewer : few < table.assocSlots) :
    small.entries (copy (copy memory table.entryLanes small.entryLanes (few * byte.size))
        table.entryStates small.entryStates (few * halfword.size)) =
      (table.entries memory).take few := by
  refine ext_getElem (by simp [isFew]; omega) fun index inside _ => ?_
  rw [length_entries, isFew] at inside
  rw [getElem_entries, getElem_take, getElem_entries]
  unfold entryAt
  rw [smallStored.lanes, smallStored.states, stored.lanes, stored.states, sameBlock, isFew]
  simp only [word_size, byte_size, halfword_size]
  congr 1
  · refine read_congr fun offset bound => ?_
    rw [word_size] at bound
    rw [copy_of_outside _ (by omega), copy_of_outside _ (by omega)]
  · refine read_congr fun offset bound => ?_
    rw [byte_size] at bound
    rw [copy_of_outside _ (by omega), copy_of_inside _ (by omega)]
    exact congrArg memory (by omega)
  · refine read_congr fun offset bound => ?_
    rw [halfword_size] at bound
    rw [copy_of_inside _ (by omega), copy_of_outside _ (by omega)]
    exact congrArg memory (by omega)

end AssocTable

end Hibana
