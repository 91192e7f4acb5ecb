/-
This file relates the association table to what it is for: a finite map from
sessions and lanes to a number of attachments, and a fault for some sessions.

The live entries are a front part of the table, one for every session on a lane
that is attached. A fault is stored in every entry of its session, and it goes
away with the last of them.
-/

import Mathlib.Data.List.Perm.Basic
import Mathlib.Data.Nat.Bitwise
import Mathlib.Logic.Function.Basic
import HibanaChoreography.Rendezvous.AssociationColumns

namespace Hibana

open Outcome ByteMemory List

/-! ### Packed states -/

namespace SessionFaultKind

/-- The code of a session with or without a fault. -/
def code : Option SessionFaultKind → UInt16
  | none => absentCode
  | some kind => kind.encode

theorem decode_code (fault : Option SessionFaultKind) : decode (code fault) = .ok fault := by
  rcases fault with _ | kind
  · rfl
  · cases kind <;> rfl

theorem code_le (fault : Option SessionFaultKind) : (code fault).toNat ≤ 127 := by
  rcases fault with _ | kind
  · decide
  · cases kind <;> decide

end SessionFaultKind

namespace AssocEntry

theorem count_liveState : (count liveState).toNat = 1 := by decide

theorem faultCode_liveState : faultCode liveState = SessionFaultKind.code none := by decide

theorem isLive_empty : isLive empty = false := by decide

theorem toNat_packed {count faultCode : UInt16} (small : count.toNat ≤ countMax)
    (isCode : faultCode.toNat ≤ 127) :
    ((faultCode <<< 9) ||| count).toNat = faultCode.toNat * 512 + count.toNat := by
  unfold countMax at small
  rw [UInt16.toNat_or, UInt16.toNat_shiftLeft]
  show faultCode.toNat <<< 9 % 2 ^ 16 ||| count.toNat = _
  rw [Nat.mod_eq_of_lt (by rw [Nat.shiftLeft_eq]; omega),
    ← Nat.shiftLeft_add_eq_or_of_lt (by omega), Nat.shiftLeft_eq]

/-- A packed state gives its parts back. -/
theorem packState_eq (count faultCode : UInt16) (small : count.toNat ≤ countMax)
    (isCode : faultCode.toNat ≤ 127) :
    ∃ raw, packState count faultCode = .ok raw ∧ AssocEntry.count raw = count ∧
      AssocEntry.faultCode raw = faultCode := by
  have packed := toNat_packed small isCode
  unfold countMax at small
  refine ⟨_, if_neg (by unfold countMax; omega), ?_, ?_⟩
  · apply UInt16.toNat_inj.mp
    rw [AssocEntry.count, UInt16.toNat_and, packed]
    show (faultCode.toNat * 512 + count.toNat) &&& (2 ^ 9 - 1) = _
    rw [Nat.and_two_pow_sub_one_eq_mod]
    omega
  · apply UInt16.toNat_inj.mp
    rw [AssocEntry.faultCode, UInt16.toNat_shiftRight, packed]
    show (faultCode.toNat * 512 + count.toNat) >>> 9 = _
    rw [Nat.shiftRight_eq_div_pow]
    omega

end AssocEntry

/-! ### The map -/

/-- The attachments of every session on every lane, and the faults of sessions. -/
structure Attachments where
  count : UInt32 → Nat → Nat
  fault : UInt32 → Option SessionFaultKind

namespace Attachments

def empty : Attachments := ⟨fun _ _ => 0, fun _ => none⟩

/-- A session with at least one attachment. -/
def Present (map : Attachments) (sid : UInt32) : Prop := ∃ lane, 0 < map.count sid lane

def setCount (map : Attachments) (sid : UInt32) (lane count : Nat) : Attachments :=
  { map with count := Function.update map.count sid (Function.update (map.count sid) lane count) }

def setFault (map : Attachments) (sid : UInt32) (fault : Option SessionFaultKind) : Attachments :=
  { map with fault := Function.update map.fault sid fault }

def attach (map : Attachments) (sid : UInt32) (lane : Nat) : Attachments :=
  map.setCount sid lane (map.count sid lane + 1)

open Classical in
/-- Release one attachment; with the last one of a session its fault goes away. -/
noncomputable def release (map : Attachments) (sid : UInt32) (lane : Nat) : Attachments :=
  let released := map.setCount sid lane (map.count sid lane - 1)
  if released.Present sid then released else released.setFault sid none

open Classical in
/-- Fault a session that has attachments and no fault. -/
noncomputable def poison (map : Attachments) (sid : UInt32) (cause : SessionFaultKind) :
    Attachments :=
  if map.Present sid ∧ map.fault sid = none then map.setFault sid (some cause) else map

end Attachments

/-! ### Lists of live entries -/

namespace AssocEntry

/-- The session and the lane offset of an entry. -/
def key (entry : AssocEntry) : UInt32 × UInt8 := (entry.sid, entry.lane)

/-- A live entry that stores what the map says about its session and its lane. -/
structure Stores (laneBase laneSlots : Nat) (map : Attachments) (entry : AssocEntry) : Prop where
  positive : 0 < (count entry.state).toNat
  bound : (count entry.state).toNat ≤ countMax
  counted : (count entry.state).toNat = map.count entry.sid (laneBase + entry.lane.toNat)
  faulted : faultCode entry.state = SessionFaultKind.code (map.fault entry.sid)
  inRange : entry.lane.toNat < laneSlots

end AssocEntry

/-- The live entries of a map, in some order. -/
structure Attachments.Listed (map : Attachments) (laneBase laneSlots : Nat)
    (entries : List AssocEntry) : Prop where
  stores : ∀ entry ∈ entries, entry.Stores laneBase laneSlots map
  distinct : (entries.map AssocEntry.key).Nodup
  complete : ∀ sid lane, 0 < map.count sid lane →
    ∃ entry ∈ entries, entry.sid = sid ∧ laneBase + entry.lane.toNat = lane
  faults : ∀ sid, map.fault sid ≠ none → map.Present sid

namespace Attachments

variable {map : Attachments} {laneBase laneSlots : Nat} {entries before after : List AssocEntry}
  {entry : AssocEntry}

theorem Listed.perm {other : List AssocEntry} (listed : map.Listed laneBase laneSlots entries)
    (isPerm : entries.Perm other) : map.Listed laneBase laneSlots other where
  stores := fun entry mem => listed.stores entry (isPerm.mem_iff.mpr mem)
  distinct := (isPerm.map _).nodup_iff.mp listed.distinct
  complete := fun sid lane isPositive => by
    obtain ⟨entry, mem, isEntry⟩ := listed.complete sid lane isPositive
    exact ⟨entry, isPerm.mem_iff.mp mem, isEntry⟩
  faults := listed.faults

theorem Listed.live (listed : map.Listed laneBase laneSlots entries) (mem : entry ∈ entries) :
    entry.isLive = true := by
  have pos := (listed.stores entry mem).positive
  rw [AssocEntry.isLive, decide_eq_true_eq]
  intro isZero
  rw [isZero] at pos
  exact absurd pos (by decide)

theorem Listed.present (listed : map.Listed laneBase laneSlots entries) (mem : entry ∈ entries) :
    map.Present entry.sid :=
  ⟨_, (listed.stores entry mem).counted ▸ (listed.stores entry mem).positive⟩

theorem setCount_self (map : Attachments) (sid : UInt32) (lane count : Nat) :
    (map.setCount sid lane count).count sid lane = count := by
  rw [setCount]
  dsimp only
  rw [Function.update_self, Function.update_self]

variable {sid other : UInt32} {lane : Nat}

theorem setCount_of_ne (map : Attachments) {place : Nat} (count : Nat)
    (ne : ¬ (other = sid ∧ place = lane)) :
    (map.setCount sid lane count).count other place = map.count other place := by
  rw [setCount]
  dsimp only
  by_cases sameSid : other = sid
  · subst sameSid
    rw [Function.update_self, Function.update_of_ne fun same => ne ⟨rfl, same⟩]
  · rw [Function.update_of_ne sameSid]

/-- The other entries have other keys. -/
theorem Listed.key_ne (listed : map.Listed laneBase laneSlots (entry :: entries))
    {other : AssocEntry} (mem : other ∈ entries) :
    ¬ (other.sid = entry.sid ∧ laneBase + other.lane.toNat = laneBase + entry.lane.toNat) := by
  rintro ⟨sameSid, sameLane⟩
  have distinct := listed.distinct
  rw [map_cons, nodup_cons] at distinct
  refine distinct.1 (mem_map.mpr ⟨other, mem, ?_⟩)
  have sameOffset : other.lane = entry.lane := UInt8.toNat_inj.mp (by omega)
  rw [AssocEntry.key, AssocEntry.key, sameSid, sameOffset]

/-- An entry stores the same in a map that agrees with the old one on its key and its session. -/
theorem stores_congr {other : Attachments} (stores : entry.Stores laneBase laneSlots map)
    (sameCount : other.count entry.sid (laneBase + entry.lane.toNat) =
      map.count entry.sid (laneBase + entry.lane.toNat))
    (sameFault : other.fault entry.sid = map.fault entry.sid) :
    entry.Stores laneBase laneSlots other where
  positive := stores.positive
  bound := stores.bound
  counted := by rw [sameCount, stores.counted]
  faulted := by rw [sameFault, stores.faulted]
  inRange := stores.inRange

/-- A new count in the state of an entry. -/
theorem Listed.setState (listed : map.Listed laneBase laneSlots (entry :: entries))
    {state : UInt16} (pos : 0 < (AssocEntry.count state).toNat)
    (bound : (AssocEntry.count state).toNat ≤ AssocEntry.countMax)
    (sameFault : AssocEntry.faultCode state = AssocEntry.faultCode entry.state) :
    (map.setCount entry.sid (laneBase + entry.lane.toNat) (AssocEntry.count state).toNat).Listed
      laneBase laneSlots ({ entry with state } :: entries) := by
  have stores := listed.stores entry mem_cons_self
  refine ⟨?_, listed.distinct, ?_, ?_⟩
  · intro other mem
    rcases mem_cons.mp mem with rfl | inRest
    · exact ⟨pos, bound, (setCount_self ..).symm, sameFault.trans stores.faulted, stores.inRange⟩
    · exact stores_congr (listed.stores other (mem_cons_of_mem _ inRest))
        (setCount_of_ne map _ (listed.key_ne inRest)) rfl
  · intro sid lane isPositive
    by_cases same : sid = entry.sid ∧ lane = laneBase + entry.lane.toNat
    · exact ⟨_, mem_cons_self, same.1.symm, same.2.symm⟩
    · rw [setCount_of_ne map _ same] at isPositive
      obtain ⟨found, mem, isFound⟩ := listed.complete sid lane isPositive
      rcases mem_cons.mp mem with rfl | inRest
      · exact ⟨_, mem_cons_self, isFound⟩
      · exact ⟨found, mem_cons_of_mem _ inRest, isFound⟩
  · intro sid isFaulted
    obtain ⟨lane, isPositive⟩ := listed.faults sid isFaulted
    by_cases same : sid = entry.sid ∧ lane = laneBase + entry.lane.toNat
    · refine ⟨lane, ?_⟩
      rw [same.1, same.2, setCount_self]
      exact pos
    · exact ⟨lane, by rwa [setCount_of_ne map _ same]⟩

/-- A new entry for a session without a fault. -/
theorem Listed.attachNew (listed : map.Listed laneBase laneSlots entries) {lane : UInt8}
    (isNew : map.count sid (laneBase + lane.toNat) = 0) (noFault : map.fault sid = none)
    (inRange : lane.toNat < laneSlots) :
    (map.attach sid (laneBase + lane.toNat)).Listed laneBase laneSlots
      (⟨sid, lane, AssocEntry.liveState⟩ :: entries) := by
  have other_ne : ∀ other ∈ entries,
      ¬ (other.sid = sid ∧ laneBase + other.lane.toNat = laneBase + lane.toNat) := by
    rintro other mem ⟨sameSid, sameLane⟩
    have stores := listed.stores other mem
    have pos := stores.positive
    rw [stores.counted, sameSid, sameLane, isNew] at pos
    exact absurd pos (Nat.lt_irrefl 0)
  refine ⟨?_, ?_, ?_, ?_⟩
  · intro other mem
    rcases mem_cons.mp mem with rfl | inRest
    · have isOne : (AssocEntry.count AssocEntry.liveState).toNat = 1 := AssocEntry.count_liveState
      refine ⟨isOne ▸ Nat.one_pos, isOne ▸ by decide, ?_, ?_, inRange⟩
      · rw [attach, setCount_self, isNew, isOne]
      · show AssocEntry.faultCode AssocEntry.liveState = SessionFaultKind.code (map.fault sid)
        rw [noFault, AssocEntry.faultCode_liveState]
    · exact stores_congr (listed.stores other inRest)
        (setCount_of_ne map _ (other_ne other inRest)) rfl
  · rw [map_cons, nodup_cons]
    refine ⟨fun mem => ?_, listed.distinct⟩
    obtain ⟨other, inRest, same⟩ := mem_map.mp mem
    obtain ⟨sameSid, sameLane⟩ := Prod.mk.inj same
    exact other_ne other inRest ⟨sameSid, by rw [sameLane]⟩
  · intro session place isPositive
    by_cases same : session = sid ∧ place = laneBase + lane.toNat
    · exact ⟨_, mem_cons_self, same.1.symm, same.2.symm⟩
    · rw [attach, setCount_of_ne map _ same] at isPositive
      obtain ⟨found, mem, isFound⟩ := listed.complete session place isPositive
      exact ⟨found, mem_cons_of_mem _ mem, isFound⟩
  · intro session isFaulted
    obtain ⟨place, isPositive⟩ := listed.faults session isFaulted
    refine ⟨place, ?_⟩
    rw [attach]
    by_cases same : session = sid ∧ place = laneBase + lane.toNat
    · rw [same.1, same.2, setCount_self]
      exact Nat.succ_pos _
    · rwa [setCount_of_ne map _ same]

theorem release_count (map : Attachments) (sid : UInt32) (lane : Nat) :
    (map.release sid lane).count = (map.setCount sid lane (map.count sid lane - 1)).count := by
  unfold release
  dsimp only
  split <;> rfl

theorem release_fault_of_ne (map : Attachments) (lane : Nat) (ne : other ≠ sid) :
    (map.release sid lane).fault other = map.fault other := by
  unfold release
  dsimp only
  split
  · rfl
  · exact Function.update_of_ne ne ..

theorem release_present :
    (map.release sid lane).Present other ↔
      (map.setCount sid lane (map.count sid lane - 1)).Present other := by
  unfold Present
  rw [release_count]

theorem release_fault_of_present (present : (map.release sid lane).Present sid) :
    (map.release sid lane).fault sid = map.fault sid := by
  rw [release_present] at present
  unfold release
  dsimp only
  rw [if_pos present]
  rfl

theorem release_fault_of_absent (absent : ¬ (map.release sid lane).Present sid) :
    (map.release sid lane).fault sid = none := by
  rw [release_present] at absent
  unfold release
  dsimp only
  rw [if_neg absent]
  exact Function.update_self ..

theorem release_of_more (more : 1 < map.count sid lane) :
    map.release sid lane = map.setCount sid lane (map.count sid lane - 1) := by
  refine if_pos ⟨lane, ?_⟩
  rw [setCount_self]
  omega

/-- The last attachment of an entry goes away with the entry. -/
theorem Listed.erase (listed : map.Listed laneBase laneSlots (entry :: entries))
    (isLast : (AssocEntry.count entry.state).toNat = 1) :
    (map.release entry.sid (laneBase + entry.lane.toNat)).Listed laneBase laneSlots entries := by
  have isOne : map.count entry.sid (laneBase + entry.lane.toNat) = 1 := by
    rw [← (listed.stores entry mem_cons_self).counted, isLast]
  have counts : ∀ sid lane, ¬ (sid = entry.sid ∧ lane = laneBase + entry.lane.toNat) →
      (map.release entry.sid (laneBase + entry.lane.toNat)).count sid lane = map.count sid lane :=
    fun sid lane ne => by rw [release_count, setCount_of_ne map _ ne]
  have gone : (map.release entry.sid (laneBase + entry.lane.toNat)).count entry.sid
      (laneBase + entry.lane.toNat) = 0 := by
    rw [release_count, setCount_self, isOne]
  have stay : ∀ other ∈ entries, (map.release entry.sid (laneBase + entry.lane.toNat)).count
      other.sid (laneBase + other.lane.toNat) = map.count other.sid (laneBase + other.lane.toNat) :=
    fun other mem => counts _ _ (listed.key_ne mem)
  refine ⟨?_, (nodup_cons.mp listed.distinct).2, ?_, ?_⟩
  · intro other mem
    have stores := listed.stores other (mem_cons_of_mem _ mem)
    refine stores_congr stores (stay other mem) ?_
    by_cases sameSid : other.sid = entry.sid
    · have isPresent := stay other mem
      rw [sameSid] at isPresent ⊢
      refine release_fault_of_present ⟨laneBase + other.lane.toNat, ?_⟩
      rw [isPresent, ← sameSid, ← stores.counted]
      exact stores.positive
    · exact release_fault_of_ne map _ sameSid
  · intro sid lane isPositive
    have ne : ¬ (sid = entry.sid ∧ lane = laneBase + entry.lane.toNat) := by
      rintro ⟨rfl, rfl⟩
      rw [gone] at isPositive
      exact absurd isPositive (Nat.lt_irrefl 0)
    rw [counts sid lane ne] at isPositive
    obtain ⟨found, mem, isFound⟩ := listed.complete sid lane isPositive
    rcases mem_cons.mp mem with rfl | inRest
    · exact absurd ⟨isFound.1.symm, isFound.2.symm⟩ ne
    · exact ⟨found, inRest, isFound⟩
  · intro sid isFaulted
    by_cases sameSid : sid = entry.sid
    · subst sameSid
      by_contra absent
      exact isFaulted (release_fault_of_absent absent)
    · rw [release_fault_of_ne map _ sameSid] at isFaulted
      obtain ⟨lane, isPositive⟩ := listed.faults sid isFaulted
      exact ⟨lane, by rwa [counts sid lane fun same => sameSid same.1]⟩

/-- The fault of a session is written into all its entries. -/
theorem Listed.poisoned (listed : map.Listed laneBase laneSlots entries) (cause : SessionFaultKind)
    (noFault : map.fault sid = none) (change : AssocEntry → AssocEntry)
    (isChanged : ∀ entry ∈ entries, entry.sid = sid → (change entry).key = entry.key ∧
      AssocEntry.count (change entry).state = AssocEntry.count entry.state ∧
      AssocEntry.faultCode (change entry).state = cause.encode)
    (isKept : ∀ entry ∈ entries, entry.sid ≠ sid → change entry = entry) :
    (map.poison sid cause).Listed laneBase laneSlots (entries.map change) := by
  have sameKey : ∀ entry ∈ entries, (change entry).key = entry.key := by
    intro entry mem
    by_cases isSid : entry.sid = sid
    · exact (isChanged entry mem isSid).1
    · rw [isKept entry mem isSid]
  have sameCount : (map.poison sid cause).count = map.count := by
    unfold poison
    split <;> rfl
  have otherFault : ∀ other, other ≠ sid →
      (map.poison sid cause).fault other = map.fault other := by
    intro other ne
    unfold poison
    split
    · exact Function.update_of_ne ne ..
    · rfl
  have isFault : map.Present sid → (map.poison sid cause).fault sid = some cause := by
    intro present
    unfold poison
    rw [if_pos ⟨present, noFault⟩]
    exact Function.update_self ..
  refine ⟨?_, ?_, ?_, ?_⟩
  · intro changed mem
    obtain ⟨entry, inEntries, rfl⟩ := mem_map.mp mem
    have stores := listed.stores entry inEntries
    by_cases isSid : entry.sid = sid
    · obtain ⟨isKey, isCount, isCode⟩ := isChanged entry inEntries isSid
      obtain ⟨keySid, keyLane⟩ := Prod.mk.inj isKey
      refine ⟨isCount ▸ stores.positive, isCount ▸ stores.bound, ?_, ?_, keyLane ▸ stores.inRange⟩
      · rw [isCount, stores.counted, sameCount, keySid, keyLane]
      · rw [isCode, keySid, isSid, isFault (isSid ▸ listed.present inEntries)]
        rfl
    · rw [isKept entry inEntries isSid]
      exact stores_congr stores (by rw [sameCount]) (otherFault _ isSid)
  · have sameKeys : (entries.map change).map AssocEntry.key = entries.map AssocEntry.key := by
      rw [map_map]
      exact map_congr_left sameKey
    rw [sameKeys]
    exact listed.distinct
  · intro session lane isPositive
    rw [sameCount] at isPositive
    obtain ⟨entry, mem, isSid, isLane⟩ := listed.complete session lane isPositive
    obtain ⟨keySid, keyLane⟩ := Prod.mk.inj (sameKey entry mem)
    exact ⟨change entry, mem_map_of_mem mem, keySid.trans isSid, keyLane ▸ isLane⟩
  · intro session isFaulted
    have present : ∀ other, map.Present other → (map.poison sid cause).Present other :=
      fun other isPresent => by
        unfold Present
        rwa [sameCount]
    by_cases isSid : session = sid
    · by_contra notPresent
      refine isFaulted ?_
      unfold poison
      rw [if_neg fun both => notPresent (present session (isSid ▸ both.1)), isSid, noFault]
    · rw [otherFault session isSid] at isFaulted
      exact present session (listed.faults session isFaulted)

end Attachments

end Hibana
