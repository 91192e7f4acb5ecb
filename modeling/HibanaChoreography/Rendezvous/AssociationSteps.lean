/-
This file proves that the operations on the lanes of a rendezvous do to the map of
attachments what they are for, and that they meet no invariant failure.
-/

import HibanaChoreography.Rendezvous.AssociationMap

namespace Hibana

open Outcome ByteMemory List

/-! ### Tables that hold a map -/

namespace AssocTable

/-- The live entries of the table come first, and they are those of the map. -/
structure Holds (table : AssocTable) (memory : Memory) (map : Attachments)
    (front back : List AssocEntry) : Prop where
  laid : table.Laid
  entries : table.entries memory = front ++ back
  listed : map.Listed table.laneBase table.laneSlots front
  dead : ∀ entry ∈ back, entry.isLive = false

variable {table : AssocTable} {memory : Memory} {map : Attachments}
  {front back before after : List AssocEntry} {entry : AssocEntry}

namespace Holds

theorem slots (holds : table.Holds memory map front back) :
    front.length + back.length = table.assocSlots := by
  rw [← length_entries table memory, holds.entries, length_append]

theorem entryAt_middle (holds : table.Holds memory map (before ++ entry :: after) back) :
    table.entryAt memory before.length = entry := by
  have inside : before.length < (table.entries memory).length := by
    rw [holds.entries]
    simp
  rw [← getElem_entries inside]
  simp only [holds.entries, append_assoc, cons_append, getElem_append_right,
    Nat.le_refl, Nat.sub_self, getElem_cons_zero]

/-- The search for an entry finds the one with its key, or there is none. -/
theorem find (holds : table.Holds memory map front back) (offset : UInt8) (sid : UInt32) :
    (table.findEntryByOffset memory offset sid = none ∧
      map.count sid (table.laneBase + offset.toNat) = 0) ∨
    ∃ before entry after, table.findEntryByOffset memory offset sid = some before.length ∧
      front = before ++ entry :: after ∧ entry.sid = sid ∧ entry.lane = offset := by
  unfold findEntryByOffset
  rw [holds.entries]
  cases isFound : (front ++ back).findIdx? fun entry =>
      decide (entry.isLive ∧ entry.lane = offset ∧ entry.sid = sid) with
  | none =>
    refine .inl ⟨rfl, ?_⟩
    rw [findIdx?_eq_none_iff] at isFound
    by_contra notZero
    obtain ⟨entry, mem, isSid, isLane⟩ := holds.listed.complete sid _ (Nat.pos_of_ne_zero notZero)
    have isOffset : entry.lane = offset := UInt8.toNat_inj.mp (by omega)
    have isMissing := isFound entry (mem_append_left _ mem)
    rw [decide_eq_false_iff_not] at isMissing
    exact isMissing ⟨holds.listed.live mem, isOffset, isSid⟩
  | some index =>
    rw [findIdx?_eq_some_iff_getElem] at isFound
    obtain ⟨inside, isEntry, _⟩ := isFound
    rw [decide_eq_true_eq] at isEntry
    have inFront : index < front.length := by
      by_contra behind
      rw [getElem_append_right (by omega)] at isEntry
      rw [holds.dead _ (getElem_mem _)] at isEntry
      exact absurd isEntry.1 (by decide)
    rw [getElem_append_left inFront] at isEntry
    refine .inr ⟨front.take index, front[index], front.drop (index + 1), ?_, ?_, isEntry.2.2,
      isEntry.2.1⟩
    · rw [length_take, Nat.min_eq_left inFront.le]
    · rw [getElem_cons_drop, take_append_drop]

theorem sessionFault (holds : table.Holds memory map front back) (sid : UInt32) :
    table.sessionFault memory sid = .ok (map.fault sid) := by
  unfold AssocTable.sessionFault
  rw [Run.findSomeM_eq_ok fun entry : AssocEntry =>
    if entry.isLive ∧ entry.sid = sid then map.fault sid else none]
  · refine congrArg Except.ok ?_
    cases isFault : map.fault sid with
    | none =>
      rw [findSome?_eq_none_iff]
      intro entry _
      split <;> rfl
    | some kind =>
      obtain ⟨lane, isPositive⟩ := holds.listed.faults sid (by
        rw [isFault]
        exact Option.some_ne_none _)
      obtain ⟨entry, mem, isSid, _⟩ := holds.listed.complete sid lane isPositive
      obtain ⟨found, isFound⟩ := Option.isSome_iff_exists.mp
        (findSome?_isSome_iff.mpr ⟨entry, holds.entries ▸ mem_append_left back mem, by
          rw [if_pos ⟨holds.listed.live mem, isSid⟩]; rfl⟩ :
          ((table.entries memory).findSome? fun entry : AssocEntry =>
            if entry.isLive ∧ entry.sid = sid then some kind else none).isSome = true)
      rw [isFound]
      obtain ⟨witness, _, isWitness⟩ := exists_of_findSome?_eq_some isFound
      split at isWitness
      · exact isWitness.symm
      · cases isWitness
  · intro entry mem
    split
    · rename_i isEntry
      rw [holds.entries] at mem
      have inFront : entry ∈ front := by
        rcases mem_append.mp mem with isFront | isBack
        · exact isFront
        · rw [holds.dead entry isBack] at isEntry
          exact absurd isEntry.1 (by decide)
      rw [AssocEntry.fault, (holds.listed.stores entry inFront).faulted, isEntry.2,
        SessionFaultKind.decode_code]
    · rfl

/-- A new count for one entry. -/
theorem writeState (holds : table.Holds memory map (before ++ entry :: after) back)
    (state : UInt16) (pos : 0 < (AssocEntry.count state).toNat)
    (bound : (AssocEntry.count state).toNat ≤ AssocEntry.countMax)
    (sameFault : AssocEntry.faultCode state = AssocEntry.faultCode entry.state) :
    table.Holds (table.writeState memory before.length state)
      (map.setCount entry.sid (table.laneBase + entry.lane.toNat) (AssocEntry.count state).toNat)
      (before ++ { entry with state } :: after) back := by
  have slots := holds.slots
  rw [length_append, length_cons] at slots
  refine ⟨holds.laid, ?_, ?_, holds.dead⟩
  · rw [entries_writeState holds.laid (by omega), holds.entries, holds.entryAt_middle,
      append_assoc, cons_append, set_append_right _ _ le_rfl, Nat.sub_self,
      set_cons_zero, append_assoc, cons_append]
  · have listed := (holds.listed.perm perm_middle).setState pos bound sameFault
    exact listed.perm perm_middle.symm

variable {lane : UInt8} {sid : UInt32}

/-- The offset of a lane in the range of the table. -/
theorem laneOffset_eq (low : table.laneBase ≤ lane.toNat)
    (high : lane.toNat < table.laneBase + table.laneSlots) :
    ∃ offset, table.laneOffset lane = some offset ∧
      table.laneBase + offset.toNat = lane.toNat ∧ offset.toNat < table.laneSlots := by
  have bound := lane.toNat_lt
  have isOffset : (UInt8.ofNat (lane.toNat - table.laneBase)).toNat =
      lane.toNat - table.laneBase := by
    rw [UInt8.toNat_ofNat', Nat.mod_eq_of_lt (by omega)]
  refine ⟨UInt8.ofNat (lane.toNat - table.laneBase), ?_, by omega, by omega⟩
  rw [laneOffset, if_neg (by omega), if_neg (by omega)]

theorem laneOffset_some {offset : UInt8} (isOffset : table.laneOffset lane = some offset) :
    table.laneBase + offset.toNat = lane.toNat ∧ offset.toNat < table.laneSlots := by
  unfold laneOffset at isOffset
  split at isOffset
  · cases isOffset
  · split at isOffset
    · cases isOffset
    · cases isOffset
      have bound := lane.toNat_lt
      rw [UInt8.toNat_ofNat', Nat.mod_eq_of_lt (by omega)]
      omega

section

variable (holds : table.Holds memory map front back)

include holds

/-- A session on a lane has an entry when it is attached. -/
theorem hasEntry_iff (low : table.laneBase ≤ lane.toNat)
    (high : lane.toNat < table.laneBase + table.laneSlots) :
    table.hasEntry memory lane sid = true ↔ 0 < map.count sid lane.toNat := by
  obtain ⟨offset, isOffset, isLane, _⟩ := laneOffset_eq low high
  unfold hasEntry
  rw [isOffset]
  dsimp only
  rcases holds.find offset sid with ⟨isNone, isZero⟩ |
    ⟨before, entry, after, isFound, rfl, rfl, rfl⟩
  · rw [isLane] at isZero
    rw [isNone, isZero]
    simp
  · have stores := holds.listed.stores entry (mem_append_right _ mem_cons_self)
    rw [isFound, ← isLane, ← stores.counted]
    exact ⟨fun _ => stores.positive, fun _ => rfl⟩

/-- The index of an attached session on a lane. -/
theorem entryIndex_eq (low : table.laneBase ≤ lane.toNat)
    (high : lane.toNat < table.laneBase + table.laneSlots)
    (attached : 0 < map.count sid lane.toNat) :
    ∃ before entry after, table.entryIndex memory lane sid = .ok before.length ∧
      front = before ++ entry :: after ∧ entry.sid = sid ∧
      table.laneBase + entry.lane.toNat = lane.toNat := by
  obtain ⟨offset, isOffset, isLane, _⟩ := laneOffset_eq low high
  rcases holds.find offset sid with ⟨_, isZero⟩ |
    ⟨before, entry, after, isFound, isFront, isSid, rfl⟩
  · rw [isLane] at isZero
    omega
  · refine ⟨before, entry, after, ?_, isFront, isSid, isLane⟩
    simp only [entryIndex, isOffset, isFound]

/-- One more attachment of an attached session, unless the count is full. -/
theorem increment (low : table.laneBase ≤ lane.toNat)
    (high : lane.toNat < table.laneBase + table.laneSlots)
    (attached : 0 < map.count sid lane.toNat) :
    (map.count sid lane.toNat = AssocEntry.countMax ∧
      table.increment memory lane sid = .ok (none, memory)) ∨
    ∃ next changed newFront, table.increment memory lane sid = .ok (some next, changed) ∧
      table.Holds changed (map.attach sid lane.toNat) newFront back := by
  obtain ⟨before, entry, after, isIndex, rfl, rfl, isLane⟩ := holds.entryIndex_eq low high attached
  have stores := holds.listed.stores entry (mem_append_right _ mem_cons_self)
  have pos := stores.positive
  have bound := stores.bound
  have counted := stores.counted
  rw [isLane] at counted
  unfold AssocTable.increment
  rw [isIndex, Run.bind_ok]
  dsimp only
  rw [holds.entryAt_middle]
  have notZero : ¬ (AssocEntry.count entry.state = 0 ∨
      AssocEntry.countMax < (AssocEntry.count entry.state).toNat) := by
    rintro (isZero | isLarge)
    · rw [isZero] at pos
      exact absurd pos (by decide)
    · omega
  unfold nextAttachmentCount
  rw [if_neg notZero]
  by_cases isFull : (AssocEntry.count entry.state).toNat = AssocEntry.countMax
  · rw [if_pos isFull, Run.bind_ok]
    exact .inl ⟨counted ▸ isFull, rfl⟩
  · rw [if_neg isFull, Run.bind_ok]
    have isNext : (AssocEntry.count entry.state + 1).toNat =
        (AssocEntry.count entry.state).toNat + 1 := by
      unfold AssocEntry.countMax at bound
      rw [UInt16.toNat_add]
      show ((AssocEntry.count entry.state).toNat + 1) % 2 ^ 16 = _
      omega
    obtain ⟨raw, isRaw, isCount, isCode⟩ := AssocEntry.packState_eq
      (AssocEntry.count entry.state + 1) (AssocEntry.faultCode entry.state)
      (by omega) (by rw [stores.faulted]; exact SessionFaultKind.code_le _)
    dsimp only
    rw [isRaw, Run.bind_ok]
    have changed := holds.writeState raw (by rw [isCount]; omega)
      (by rw [isCount]; omega) isCode
    rw [isCount, isNext, counted, isLane] at changed
    exact .inr ⟨_, _, _, rfl, changed⟩

/-- The first entry that is not live is the one behind the live entries. -/
theorem findIdx_dead :
    ((table.entries memory).findIdx? fun entry => !entry.isLive) =
      if back = [] then none else some front.length := by
  have noneLive : (front.findIdx? fun entry : AssocEntry => !entry.isLive) = none := by
    rw [findIdx?_eq_none_iff]
    intro entry mem
    rw [holds.listed.live mem]
    rfl
  rw [holds.entries, findIdx?_append, noneLive, Option.none_or]
  cases back with
  | nil => rfl
  | cons entry rest =>
    rw [findIdx?_cons, holds.dead entry mem_cons_self, if_neg (cons_ne_nil _ _)]
    simp

/-- The first attachment of a session on a lane takes an entry, when there is one. -/
theorem register (low : table.laneBase ≤ lane.toNat)
    (high : lane.toNat < table.laneBase + table.laneSlots) (isNew : map.count sid lane.toNat = 0)
    (noFault : map.fault sid = none) :
    (back = [] ∧ table.register memory lane sid = .ok (false, memory)) ∨
    ∃ changed newFront newBack, table.register memory lane sid = .ok (true, changed) ∧
      table.Holds changed (map.attach sid lane.toNat) newFront newBack := by
  obtain ⟨offset, isOffset, isLane, inRange⟩ := laneOffset_eq low high
  have isMissing : table.findEntryByOffset memory offset sid = none := by
    rcases holds.find offset sid with ⟨isNone, _⟩ | ⟨before, entry, after, _, rfl, rfl, rfl⟩
    · exact isNone
    · have stores := holds.listed.stores entry (mem_append_right _ mem_cons_self)
      have pos := stores.positive
      rw [stores.counted, isLane, isNew] at pos
      exact absurd pos (Nat.lt_irrefl 0)
  unfold AssocTable.register
  simp only [isOffset, isMissing]
  rw [if_neg (by decide), holds.findIdx_dead]
  cases back with
  | nil => exact .inl ⟨rfl, rfl⟩
  | cons dead rest =>
    rw [if_neg (cons_ne_nil _ _)]
    refine .inr ⟨_, front ++ [⟨sid, offset, AssocEntry.liveState⟩], rest, rfl, holds.laid, ?_, ?_,
      fun entry mem => holds.dead entry (mem_cons_of_mem _ mem)⟩
    · have slots := holds.slots
      rw [length_cons] at slots
      rw [entries_writeEntry holds.laid (by omega), holds.entries,
        set_append_right _ _ le_rfl, Nat.sub_self, set_cons_zero,
        append_assoc, cons_append, nil_append]
    · rw [← isLane] at isNew ⊢
      exact (holds.listed.attachNew isNew noFault inRange).perm (perm_append_singleton _ _).symm

end

/-- The last live entry is found from the back. -/
theorem findLast (holds : table.Holds memory map (before ++ [entry]) back) :
    ((List.range table.assocSlots).reverse.find? fun other =>
      (table.entryAt memory other).isLive) = some before.length := by
  have slots := holds.slots
  rw [length_append, length_singleton] at slots
  have isRange : List.range table.assocSlots = List.range before.length ++
      (before.length :: List.range' (before.length + 1) back.length) := by
    have joined := @range'_append_1 0 before.length (back.length + 1)
    rw [Nat.zero_add] at joined
    rw [← range'_succ, range_eq_range', range_eq_range', joined]
    congr 1
    omega
  have noneBehind : ((List.range' (before.length + 1) back.length).reverse.find? fun other =>
      (table.entryAt memory other).isLive) = none := by
    rw [find?_eq_none]
    intro other mem
    rw [mem_reverse, mem_range'_1] at mem
    have inside : other < (table.entries memory).length := by
      rw [length_entries]
      omega
    rw [← getElem_entries inside]
    simp only [holds.entries]
    rw [getElem_append_right (by rw [length_append, length_singleton]; omega),
      holds.dead _ (getElem_mem _)]
    exact Bool.false_ne_true
  have isLast : (table.entryAt memory before.length).isLive = true := by
    rw [holds.entryAt_middle]
    exact holds.listed.live (mem_append_right _ mem_cons_self)
  rw [isRange, reverse_append, reverse_cons, append_assoc, find?_append,
    noneBehind, Option.none_or, singleton_append, find?_cons, isLast]

/-- The last entry takes the place of the removed one. -/
theorem removeEntry (holds : table.Holds memory map (before ++ entry :: after) back)
    (isLast : (AssocEntry.count entry.state).toNat = 1) :
    ∃ changed newFront, table.removeEntry memory before.length = .ok changed ∧
      table.Holds changed (map.release entry.sid (table.laneBase + entry.lane.toNat)) newFront
        (AssocEntry.empty :: back) := by
  have slots := holds.slots
  rw [length_append, length_cons] at slots
  have released := (holds.listed.perm perm_middle).erase isLast
  have dead : ∀ other ∈ AssocEntry.empty :: back, other.isLive = false := by
    intro other mem
    rcases mem_cons.mp mem with rfl | inBack
    · exact AssocEntry.isLive_empty
    · exact holds.dead other inBack
  unfold AssocTable.removeEntry
  rw [if_neg (by omega)]
  rcases eq_nil_or_concat after with rfl | ⟨middle, last, rfl⟩
  · rw [holds.findLast]
    dsimp only
    rw [if_pos rfl]
    refine ⟨_, before, rfl, holds.laid, ?_, ?_, dead⟩
    · rw [entries_writeEntry holds.laid (by omega), holds.entries, append_assoc,
        set_append_right _ _ le_rfl, Nat.sub_self, singleton_append,
        set_cons_zero]
    · rwa [append_nil] at released
  · rw [concat_eq_append] at holds slots released
    rw [length_append, length_singleton] at slots
    have isFront : before ++ entry :: (middle ++ [last]) =
        (before ++ entry :: middle) ++ [last] := by
      rw [append_assoc, cons_append]
    have lastHolds := holds
    rw [isFront] at lastHolds
    have isLength : (before ++ entry :: middle).length = before.length + (middle.length + 1) := by
      rw [length_append, length_cons]
    rw [lastHolds.findLast, isLength]
    dsimp only
    rw [if_neg (by omega), ← isLength, lastHolds.entryAt_middle]
    refine ⟨_, before ++ last :: middle, rfl, holds.laid, ?_, ?_, dead⟩
    · rw [entries_writeEntry holds.laid (by omega), entries_writeEntry holds.laid (by omega),
        holds.entries, isLength, append_assoc, set_append_right _ _ le_rfl,
        Nat.sub_self, cons_append, set_cons_zero,
        set_append_right _ _ (Nat.le_add_right _ _), Nat.add_sub_cancel_left,
        set_cons_succ, append_assoc, set_append_right _ _ le_rfl,
        Nat.sub_self, singleton_append, set_cons_zero, append_assoc,
        cons_append]
    · refine released.perm ?_
      exact List.Perm.append_left before (perm_append_singleton last middle)

/-- One attachment less of an attached session. -/
theorem decrement (holds : table.Holds memory map front back) (low : table.laneBase ≤ lane.toNat)
    (high : lane.toNat < table.laneBase + table.laneSlots)
    (attached : 0 < map.count sid lane.toNat) :
    ∃ remaining changed newFront newBack,
      table.decrement memory lane sid = .ok (remaining, changed) ∧
      remaining.toNat = map.count sid lane.toNat - 1 ∧
      table.Holds changed (map.release sid lane.toNat) newFront newBack := by
  obtain ⟨before, entry, after, isIndex, rfl, rfl, isLane⟩ := holds.entryIndex_eq low high attached
  have stores := holds.listed.stores entry (mem_append_right _ mem_cons_self)
  have pos := stores.positive
  have bound := stores.bound
  have counted := stores.counted
  rw [isLane] at counted
  have notZero : ¬ AssocEntry.count entry.state = 0 := by
    intro isZero
    rw [isZero] at pos
    exact absurd pos (by decide)
  have isNext : (AssocEntry.count entry.state - 1).toNat =
      (AssocEntry.count entry.state).toNat - 1 :=
    UInt16.toNat_sub_of_le _ _ (by
      rw [UInt16.le_iff_toNat_le]
      exact pos)
  unfold AssocTable.decrement
  rw [isIndex, Run.bind_ok]
  rw [holds.entryAt_middle, if_neg notZero]
  by_cases isLast : AssocEntry.count entry.state - 1 = 0
  · rw [if_pos isLast]
    have isOne : (AssocEntry.count entry.state).toNat = 1 := by
      rw [isLast] at isNext
      have isZero : (0 : UInt16).toNat = 0 := rfl
      omega
    obtain ⟨changed, newFront, isChanged, released⟩ := holds.removeEntry isOne
    rw [isChanged, Run.bind_ok]
    rw [isLane] at released
    exact ⟨_, _, _, _, rfl, by rw [isNext, counted], released⟩
  · rw [if_neg isLast]
    have stillPositive : 0 < (AssocEntry.count entry.state - 1).toNat := by
      rw [Nat.pos_iff_ne_zero]
      intro isZero
      exact isLast (UInt16.toNat_inj.mp isZero)
    obtain ⟨raw, isRaw, isCount, isCode⟩ := AssocEntry.packState_eq
      (AssocEntry.count entry.state - 1) (AssocEntry.faultCode entry.state)
      (by omega) (by rw [stores.faulted]; exact SessionFaultKind.code_le _)
    rw [isRaw, Run.bind_ok]
    have changed := holds.writeState raw (by rwa [isCount]) (by rw [isCount]; omega) isCode
    rw [isCount, isNext, counted, isLane, ← Attachments.release_of_more (by omega)] at changed
    exact ⟨_, _, _, _, rfl, by rw [isNext, counted], changed⟩

/-- An entry with the fault of its session. -/
def poisonedEntry (sid : UInt32) (cause : SessionFaultKind) (entry : AssocEntry) : AssocEntry :=
  if entry.isLive ∧ entry.sid = sid then
    { entry with state := (cause.encode <<< 9) ||| AssocEntry.count entry.state }
  else entry

/-- The fault is written into one entry. -/
theorem poisonEntry_eq (laid : table.Laid) (memory : Memory) (sid : UInt32)
    (cause : SessionFaultKind) {index : Nat} (inside : index < table.assocSlots)
    (bound : (AssocEntry.count (table.entryAt memory index).state).toNat ≤ AssocEntry.countMax) :
    ∃ changed, table.poisonEntry sid cause memory index = .ok changed ∧
      table.entryAt changed index = poisonedEntry sid cause (table.entryAt memory index) ∧
      ∀ position < table.assocSlots, position ≠ index →
        table.entryAt changed position = table.entryAt memory position := by
  unfold poisonEntry poisonedEntry
  dsimp only
  split
  · have isCode : cause.encode.toNat ≤ 127 := SessionFaultKind.code_le (some cause)
    rw [AssocEntry.packState, if_neg (by omega), Run.bind_ok]
    refine ⟨_, rfl, entryAt_writeState_self laid inside, ?_⟩
    intro position isPosition ne
    exact entryAt_writeState_of_ne laid inside isPosition ne
  · exact ⟨memory, rfl, rfl, fun _ _ _ => rfl⟩

/-- The loop writes the fault into one entry after the other. -/
theorem poisonEntries (holds : table.Holds memory map front back) (sid : UInt32)
    (cause : SessionFaultKind) :
    ∃ changed, (List.range table.assocSlots).foldlM (table.poisonEntry sid cause) memory =
        .ok changed ∧
      table.entries changed = (table.entries memory).map (poisonedEntry sid cause) := by
  have bounds : ∀ index < table.assocSlots,
      (AssocEntry.count (table.entryAt memory index).state).toNat ≤ AssocEntry.countMax := by
    intro index inside
    have mem : table.entryAt memory index ∈ front ++ back :=
      holds.entries ▸ mem_entries.mpr ⟨index, inside, rfl⟩
    rcases mem_append.mp mem with inFront | inBack
    · exact (holds.listed.stores _ inFront).bound
    · have isDead := holds.dead _ inBack
      rw [AssocEntry.isLive, decide_eq_false_iff_not, not_not] at isDead
      rw [isDead]
      exact Nat.zero_le _
  have prefixes : ∀ count ≤ table.assocSlots, ∃ changed,
      (List.range count).foldlM (table.poisonEntry sid cause) memory = .ok changed ∧
      ∀ position < table.assocSlots, table.entryAt changed position =
        if position < count then poisonedEntry sid cause (table.entryAt memory position)
        else table.entryAt memory position := by
    intro count fits
    induction count with
    | zero => exact ⟨memory, rfl, fun _ _ => rfl⟩
    | succ count hyp =>
      obtain ⟨changed, isChanged, isEntry⟩ := hyp (Nat.le_of_succ_le fits)
      have isNext := isEntry count fits
      rw [if_neg (Nat.lt_irrefl count)] at isNext
      obtain ⟨after, isAfter, isSelf, isOther⟩ := poisonEntry_eq holds.laid changed sid cause fits
        (by rw [isNext]; exact bounds count fits)
      refine ⟨after, ?_, ?_⟩
      · rw [range_succ, foldlM_append, isChanged, Run.bind_ok, foldlM_cons, isAfter,
          Run.bind_ok]
        rfl
      · intro position isPosition
        by_cases isIndex : position = count
        · rw [isIndex, isSelf, isNext, if_pos (Nat.lt_succ_self _)]
        · rw [isOther position isPosition isIndex, isEntry position isPosition]
          congr 1
          exact propext (by omega)
  obtain ⟨changed, isChanged, isEntry⟩ := prefixes table.assocSlots le_rfl
  refine ⟨changed, isChanged, ?_⟩
  rw [AssocTable.entries, AssocTable.entries, map_map]
  refine map_congr_left fun index mem => ?_
  rw [isEntry index (mem_range.mp mem), if_pos (mem_range.mp mem)]
  rfl

/-- A session gets the first fault, and keeps it. -/
theorem poisonSession (holds : table.Holds memory map front back) (sid : UInt32)
    (cause : SessionFaultKind) :
    ∃ changed newFront, table.poisonSession memory sid cause =
        .ok ((map.fault sid).getD cause, changed) ∧
      table.Holds changed (map.poison sid cause) newFront back := by
  unfold AssocTable.poisonSession
  rw [holds.sessionFault, Run.bind_ok]
  cases isFault : map.fault sid with
  | some existing =>
    refine ⟨memory, front, rfl, ?_⟩
    have same : map.poison sid cause = map :=
      if_neg fun both => by
        rw [isFault] at both
        exact Option.some_ne_none _ both.2
    rw [same]
    exact holds
  | none =>
    obtain ⟨changed, isChanged, isEntries⟩ := holds.poisonEntries sid cause
    rw [isChanged, Run.bind_ok]
    refine ⟨changed, front.map (poisonedEntry sid cause), rfl, holds.laid, ?_, ?_, holds.dead⟩
    · rw [isEntries, holds.entries, map_append]
      congr 1
      refine (map_congr_left fun entry mem => ?_).trans (map_id _)
      rw [poisonedEntry, holds.dead entry mem]
      exact if_neg fun both => absurd both.1 (by decide)
    · refine holds.listed.poisoned cause isFault _ ?_ ?_
      · intro entry mem isSid
        have isPoisoned : poisonedEntry sid cause entry =
            { entry with state := (cause.encode <<< 9) ||| AssocEntry.count entry.state } :=
          if_pos ⟨holds.listed.live mem, isSid⟩
        have isCode : cause.encode.toNat ≤ 127 := SessionFaultKind.code_le (some cause)
        have bound := (holds.listed.stores entry mem).bound
        obtain ⟨raw, isRaw, isCount, isFaultCode⟩ := AssocEntry.packState_eq
          (AssocEntry.count entry.state) cause.encode bound isCode
        rw [AssocEntry.packState, if_neg (by omega)] at isRaw
        rw [isPoisoned, Except.ok.inj isRaw]
        exact ⟨rfl, isCount, isFaultCode⟩
      · intro entry _ ne
        exact if_neg fun both => ne both.2

end Holds

end AssocTable

end Hibana
