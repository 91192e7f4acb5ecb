/-
This file is about histories of the lanes of a rendezvous: attachments, releases and
faults of sessions, while the table grows into other blocks, shrinks in place and is
moved.

In every state of a history the table is the map that the attachments and releases
so far have made, no request that its callers may make meets an invariant failure, and
the first fault of a session stays until the session has released its last lane.
-/

import HibanaChoreography.Library.Machine
import HibanaChoreography.Rendezvous.AssociationStorage

namespace Hibana

open Outcome ByteMemory Machines

/-- A request to the lanes of a rendezvous. The storage requests are those of the owner of the
table: a block for growth, fewer entries and lanes, and the memory after its block was moved. -/
inductive LaneOp where
  | attach (sid : UInt32) (lane : UInt8)
  | release (sid : UInt32) (lane : UInt8)
  | poison (sid : UInt32) (cause : SessionFaultKind)
  | grow (storage laneSlots assocSlots : Nat)
  | shrink (laneSlots assocSlots : Nat)
  | relocate (moved : Memory) (storage : Nat)

inductive LaneReply where
  | attached (result : Except RendezvousError Unit)
  | released (release : LaneRelease)
  | poisoned (kind : SessionFaultKind)
  | done

/-- The session of a request. -/
def LaneOp.session : LaneOp → Option UInt32
  | .attach sid _ | .release sid _ | .poison sid _ => some sid
  | .grow .. | .shrink .. | .relocate .. => none

/-- What a request does to the map of attachments. -/
noncomputable def LaneOp.effect : LaneOp → LaneReply → Attachments → Attachments
  | .attach sid lane, .attached (.ok ()), map => map.attach sid lane.toNat
  | .release sid lane, _, map => map.release sid lane.toNat
  | .poison sid cause, _, map => map.poison sid cause
  | _, _, map => map

namespace LaneStore

/-- The lanes of a new rendezvous. -/
def new (memory : Memory) : LaneStore := ⟨memory, .initEmpty, 0, 0⟩

/-- A lane is released by a session that holds it; storage is asked for as its owner does. -/
def Admits (usizeMax : Nat) (store : LaneStore) : LaneOp → Prop
  | .attach .. | .poison .. => True
  | .release sid lane => store.assoc.hasEntry store.memory lane sid = true
  | .grow storage laneSlots assocSlots => store.Grants usizeMax storage laneSlots assocSlots
  | .shrink laneSlots assocSlots => store.Spares laneSlots assocSlots
  | .relocate moved storage => store.Moves usizeMax moved storage

def perform (usizeMax : Nat) (store : LaneStore) : LaneOp → Run (LaneReply × LaneStore)
  | .attach sid lane => do
    let (result, next) ← store.activateLaneAttachment sid lane
    return (.attached result, next)
  | .release sid lane => do
    let (release, next) ← store.releaseLane sid lane
    return (.released release, next)
  | .poison sid cause => do
    let (kind, next) ← store.poisonSession sid cause
    return (.poisoned kind, next)
  | .grow storage laneSlots assocSlots => do
    return (.done, ← store.installLaneStorage usizeMax storage laneSlots assocSlots)
  | .shrink laneSlots assocSlots => do
    let shrunk ← store.shrinkAssocTable usizeMax store.assoc.entrySids assocSlots
    return (.done, ← shrunk.shrinkLaneRange laneSlots)
  | .relocate moved storage => do
    return (.done, ← { store with memory := moved }.relocateAssoc usizeMax storage)

def machine (usizeMax : Nat) : Machine LaneStore LaneOp LaneReply :=
  ⟨Admits usizeMax, perform usizeMax⟩

/-! ### Steps -/

variable {usizeMax : Nat} {store : LaneStore} {map : Attachments}

theorem new_represents (usizeMax : Nat) (memory : Memory) :
    (new memory).Represents usizeMax Attachments.empty where
  holds := ⟨[], [], ⟨Nat.le_refl 0, Nat.le_refl 0⟩, rfl,
    ⟨nofun, List.nodup_nil,
      fun _ _ isPositive => absurd isPositive (Nat.lt_irrefl 0), fun _ isFault =>
        absurd rfl isFault⟩,
    nofun⟩
  laneEnd := rfl
  laneBase := fun isBound => absurd isBound Bool.false_ne_true
  block := fun isBound => absurd isBound Bool.false_ne_true
  unbound := fun _ => rfl

/-- Every request that is admitted returns, and the store then holds the map that the request
makes. -/
theorem Represents.perform (represents : store.Represents usizeMax map) {op : LaneOp}
    (admitted : store.Admits usizeMax op) :
    ∃ reply next, store.perform usizeMax op = .ok (reply, next) ∧
      next.Represents usizeMax (op.effect reply map) := by
  cases op with
  | attach sid lane =>
    rcases represents.activate sid lane with ⟨next, isOk, _, isHeld⟩ | ⟨error, isRefused⟩
    · exact ⟨.attached (.ok ()), next, by rw [LaneStore.perform, isOk]; rfl, isHeld⟩
    · exact ⟨.attached (.error error), store, by rw [LaneStore.perform, isRefused]; rfl, represents⟩
  | release sid lane =>
    obtain ⟨next, isOk, _, isHeld⟩ := represents.release admitted
    exact ⟨_, next, by rw [LaneStore.perform, isOk]; rfl, isHeld⟩
  | poison sid cause =>
    obtain ⟨next, isOk, isHeld⟩ := represents.poison sid cause
    exact ⟨_, next, by rw [LaneStore.perform, isOk]; rfl, isHeld⟩
  | grow storage laneSlots assocSlots =>
    obtain ⟨_, isOk, isHeld, _⟩ := represents.install admitted
    exact ⟨.done, _, by rw [LaneStore.perform, isOk]; rfl, isHeld⟩
  | shrink laneSlots assocSlots =>
    obtain ⟨shrunk, next, isShrunk, isOk, isHeld⟩ := represents.reclaim admitted
    exact ⟨.done, next, by rw [LaneStore.perform, isShrunk, Run.bind_ok, isOk]; rfl, isHeld⟩
  | relocate moved storage =>
    obtain ⟨isOk, isHeld⟩ := represents.relocate admitted
    exact ⟨.done, _, by rw [LaneStore.perform, relocateAssoc, isOk]; rfl, isHeld⟩

variable {visits : List (Visit LaneStore LaneOp LaneReply)} {next : LaneStore}

/-- In every state of a history the store holds the map of the history. -/
theorem Represents.history (represents : store.Represents usizeMax map)
    (history : History (machine usizeMax) store visits next) :
    next.Represents usizeMax (effects LaneOp.effect map visits) := by
  refine history.refines represents fun state abstract op reply after isHeld admitted isOk => ?_
  obtain ⟨otherReply, other, isOther, kept⟩ := isHeld.perform admitted
  cases isOk.symm.trans isOther
  exact kept

/-! ### What a request does to the map -/

/-- A request leaves the other sessions alone. -/
theorem effect_of_other (op : LaneOp) (reply : LaneReply) (map : Attachments) {other : UInt32}
    (isOther : op.session ≠ some other) :
    (op.effect reply map).count other = map.count other ∧
      (op.effect reply map).fault other = map.fault other := by
  cases op with
  | attach sid lane =>
    have ne : other ≠ sid := fun same => isOther (same ▸ rfl)
    rcases reply with ⟨_ | _⟩ | _ | _ | _
    case attached.ok => exact ⟨Function.update_of_ne ne _ _, rfl⟩
    all_goals exact ⟨rfl, rfl⟩
  | release sid lane =>
    have ne : other ≠ sid := fun same => isOther (same ▸ rfl)
    rw [LaneOp.effect, Attachments.release]
    split
    · exact ⟨Function.update_of_ne ne _ _, rfl⟩
    · exact ⟨Function.update_of_ne ne _ _, Function.update_of_ne ne _ _⟩
  | poison sid cause =>
    have ne : other ≠ sid := fun same => isOther (same ▸ rfl)
    rw [LaneOp.effect, Attachments.poison]
    split
    · exact ⟨rfl, Function.update_of_ne ne _ _⟩
    · exact ⟨rfl, rfl⟩
  | grow _ _ _ | shrink _ _ | relocate _ _ => exact ⟨rfl, rfl⟩

variable {kind : SessionFaultKind}

/-- A session that has attachments after a request keeps its fault. -/
theorem effect_keeps_fault (op : LaneOp) (reply : LaneReply) {sid : UInt32}
    (isFault : map.fault sid = some kind) (present : (op.effect reply map).Present sid) :
    (op.effect reply map).fault sid = some kind := by
  by_cases isOther : op.session = some sid
  swap
  · rw [(effect_of_other op reply map isOther).2, isFault]
  cases op with
  | attach first lane =>
    rcases reply with ⟨_ | _⟩ | _ | _ | _
    all_goals exact isFault
  | release first lane =>
    cases isOther
    rw [LaneOp.effect, Attachments.release] at present ⊢
    split at present
    · rename_i stillPresent
      rw [if_pos stillPresent]
      exact isFault
    · rename_i gone
      exact absurd present gone
  | poison first cause =>
    cases isOther
    rw [LaneOp.effect, Attachments.poison, if_neg]
    · exact isFault
    · rintro ⟨_, noFault⟩
      cases isFault.symm.trans noFault
  | grow _ _ _ | shrink _ _ | relocate _ _ => cases isOther

/-! ### What callers see -/

/-- A live entry of a session on a lane, with its count. -/
def Attached (store : LaneStore) (sid : UInt32) (lane count : Nat) : Prop :=
  ∃ entry ∈ store.assoc.entries store.memory, entry.isLive = true ∧ entry.sid = sid ∧
    store.assoc.laneBase + entry.lane.toNat = lane ∧ (AssocEntry.count entry.state).toNat = count

/-- The table is a map: its live entries stand before the others, no two of them have one session
and one lane, and their counts are the positive values of the map. -/
structure IsMap (store : LaneStore) (map : Attachments) : Prop where
  prefixed : ∀ index < store.assoc.assocSlots, (store.assoc.entryAt store.memory index).isLive =
    decide (index < store.assoc.activeEntryCount store.memory)
  distinct : (((store.assoc.entries store.memory).filter AssocEntry.isLive).map
    AssocEntry.key).Nodup
  counted : ∀ sid lane count, store.Attached sid lane count ↔
    0 < count ∧ map.count sid lane = count

theorem Represents.isMap (represents : store.Represents usizeMax map) : store.IsMap map := by
  obtain ⟨front, back, holds⟩ := represents.holds
  refine ⟨fun index inside => ?_, ?_, fun sid lane count => ⟨?_, ?_⟩⟩
  · rw [holds_isLive holds inside, holds_activeEntryCount holds]
  · rw [holds_filter holds]
    exact holds.listed.distinct
  · rintro ⟨entry, mem, isLive, rfl, rfl, rfl⟩
    have inFront : entry ∈ front := by
      rw [← holds_filter holds]
      exact List.mem_filter.mpr ⟨mem, isLive⟩
    have stores := holds.listed.stores entry inFront
    exact ⟨stores.positive, stores.counted.symm⟩
  · rintro ⟨pos, rfl⟩
    obtain ⟨entry, mem, rfl, rfl⟩ := holds.listed.complete sid lane pos
    refine ⟨entry, ?_, holds.listed.live mem, rfl, rfl, (holds.listed.stores entry mem).counted⟩
    rw [holds.entries]
    exact List.mem_append_left back mem

theorem Represents.sessionFault_eq (represents : store.Represents usizeMax map) (sid : UInt32) :
    store.sessionFault sid = .ok (map.fault sid) := by
  obtain ⟨front, back, holds⟩ := represents.holds
  exact holds.sessionFault sid

/-- A session is present in the map when the table has an entry of it. -/
theorem IsMap.present_iff (isMap : store.IsMap map) (sid : UInt32) :
    map.Present sid ↔ ∃ lane count, store.Attached sid lane count := by
  constructor
  · rintro ⟨lane, pos⟩
    exact ⟨lane, _, (isMap.counted sid lane _).mpr ⟨pos, rfl⟩⟩
  · rintro ⟨lane, count, attached⟩
    obtain ⟨pos, rfl⟩ := (isMap.counted sid lane count).mp attached
    exact ⟨lane, pos⟩

/-- A session that keeps an entry in every state of a history keeps its fault. -/
theorem Represents.keepsFault (represents : store.Represents usizeMax map)
    (history : History (machine usizeMax) store visits next) {sid : UInt32}
    (isFault : map.fault sid = some kind)
    (stays : ∀ visit ∈ visits, ∃ lane count, visit.state.Attached sid lane count) :
    (effects LaneOp.effect map visits).fault sid = some kind := by
  induction history with
  | start => exact isFault
  | step earlier op admitted isOk hyp =>
    rename_i visits state after reply
    have isHeld := represents.history (.step earlier op admitted isOk)
    have present := (isHeld.isMap.present_iff sid).mpr
      (stays _ (List.mem_append_right visits List.mem_cons_self))
    rw [effects_append] at present ⊢
    exact effect_keeps_fault op reply
      (hyp fun visit mem => stays visit (List.mem_append_left _ mem)) present

/-- The association table over whole histories. It is the map of the attachments so far, and
`session_fault` reads the fault of the map. Every admitted request returns, and leaves the entries
and the faults of the other sessions as they were. A session with an entry is faulted with its
first cause, keeps it as long as it has an entry, and has none without one. -/
theorem association_table_is_map {memory : Memory}
    {visits : List (Visit LaneStore LaneOp LaneReply)}
    (history : History (machine usizeMax) (new memory) visits store) :
    store.IsMap (effects LaneOp.effect .empty visits) ∧
    (∀ sid, store.sessionFault sid = .ok ((effects LaneOp.effect .empty visits).fault sid)) ∧
    (∀ op, store.Admits usizeMax op → ∃ reply next, store.perform usizeMax op = .ok (reply, next) ∧
      ∀ other, op.session ≠ some other →
        (∀ lane count, next.Attached other lane count ↔ store.Attached other lane count) ∧
        next.sessionFault other = store.sessionFault other) ∧
    (∀ sid lane count cause, store.Attached sid lane count → ∃ kind next,
      store.poisonSession sid cause = .ok (kind, next) ∧
      next.sessionFault sid = .ok (some kind) ∧
      (store.sessionFault sid = .ok (some kind) ∨
        store.sessionFault sid = .ok none ∧ kind = cause)) ∧
    (∀ sid kind later next, store.sessionFault sid = .ok (some kind) →
      History (machine usizeMax) store later next →
      (∀ visit ∈ later, ∃ lane count, visit.state.Attached sid lane count) →
      next.sessionFault sid = .ok (some kind)) ∧
    (∀ sid, (∀ lane count, ¬ store.Attached sid lane count) →
      store.sessionFault sid = .ok none) := by
  have represents := (new_represents usizeMax memory).history history
  have isMap := represents.isMap
  generalize effects LaneOp.effect .empty visits = map at represents isMap ⊢
  refine ⟨isMap, represents.sessionFault_eq, fun op admitted => ?_,
    fun sid lane count cause attached => ?_, fun sid kind later next isFault rest stays => ?_,
    fun sid gone => ?_⟩
  · obtain ⟨reply, next, isOk, isHeld⟩ := represents.perform admitted
    refine ⟨reply, next, isOk, fun other isOther => ?_⟩
    obtain ⟨sameCount, sameFault⟩ := effect_of_other op reply map isOther
    refine ⟨fun lane count => ?_, ?_⟩
    · rw [isHeld.isMap.counted, isMap.counted, sameCount]
    · rw [isHeld.sessionFault_eq, represents.sessionFault_eq, sameFault]
  · obtain ⟨next, isOk, isHeld⟩ := represents.poison sid cause
    have present := (isMap.present_iff sid).mpr ⟨lane, count, attached⟩
    refine ⟨_, next, isOk, ?_, ?_⟩
    · rw [isHeld.sessionFault_eq, Attachments.poison]
      cases isFault : map.fault sid with
      | none =>
        rw [if_pos ⟨present, rfl⟩]
        exact congrArg Except.ok (Function.update_self ..)
      | some kind =>
        rw [if_neg (by rintro ⟨_, noFault⟩; cases noFault), isFault]
        rfl
    · rw [represents.sessionFault_eq]
      cases map.fault sid with
      | none => exact .inr ⟨rfl, rfl⟩
      | some kind => exact .inl rfl
  · rw [represents.sessionFault_eq] at isFault
    rw [(represents.history rest).sessionFault_eq,
      represents.keepsFault rest (Except.ok.inj isFault) stays]
  · rw [represents.sessionFault_eq]
    by_contra notNone
    obtain ⟨front, back, holds⟩ := represents.holds
    have present := holds.listed.faults sid fun isNone => notNone (congrArg Except.ok isNone)
    obtain ⟨lane, count, attached⟩ := (isMap.present_iff sid).mp present
    exact gone lane count attached

/-- A table with two entries, in which a session is attached and then faulted twice. -/
theorem association_table_is_map_faulted :
    ∃ visits store, History (machine 65535) (new fun _ => 0) visits store ∧ visits.length = 4 ∧
      store.IsMap (effects LaneOp.effect .empty visits) ∧
      store.sessionFault 7 = .ok (some .decodeFailed) := by
  have grants : (new fun _ => 0).Grants 65535 4 1 2 :=
    ⟨by decide, by decide, by decide, by decide, by decide, by decide, by decide, by decide,
      fun isBound => absurd isBound (by decide)⟩
  have begun : History (machine 65535) (new fun _ => 0) [] _ := .start
  have run : (do
      let (_, grown) ← (new fun _ => 0).perform 65535 (.grow 4 1 2)
      let (_, held) ← grown.perform 65535 (.attach 7 0)
      let (_, faulted) ← held.perform 65535 (.poison 7 .decodeFailed)
      let (_, last) ← faulted.perform 65535 (.poison 7 .transportClosed)
      last.sessionFault 7) = .ok (some .decodeFailed) := by
    decide +kernel
  obtain ⟨⟨_, grown⟩, isGrown, run⟩ := Run.of_bind run
  obtain ⟨⟨_, held⟩, isHeld, run⟩ := Run.of_bind run
  obtain ⟨⟨_, faulted⟩, isFaulted, run⟩ := Run.of_bind run
  obtain ⟨⟨_, last⟩, isLast, isFault⟩ := Run.of_bind run
  have first := begun.step (.grow 4 1 2) grants isGrown
  have second := first.step (.attach 7 0) trivial isHeld
  have third := second.step (.poison 7 .decodeFailed) trivial isFaulted
  have fourth := third.step (.poison 7 .transportClosed) trivial isLast
  exact ⟨_, last, fourth, rfl, (association_table_is_map fourth).1, isFault⟩

end LaneStore

end Hibana
