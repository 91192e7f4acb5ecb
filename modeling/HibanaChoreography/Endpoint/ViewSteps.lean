/-
This file says what the operations on views do to the ledger of an actor.

Each operation issues one view, retires one view, or leaves the ledger as it is; the
records of the other views stay untouched. None of them meets an invariant failure on a
ledger in order.
-/

import HibanaChoreography.Endpoint.ViewLedger

namespace Hibana

open Outcome List

namespace Actor

/-- The ledger of an actor. -/
def ledger (actor : Actor) : Ledger :=
  ⟨actor.views.map (·.header), actor.viewGeneration, actor.liveViews, actor.retiredViews⟩

def InOrder (actor : Actor) : Prop :=
  actor.ledger.InOrder actor.publicGeneration

/-- A step of an actor that touches some of its records only. -/
structure Touches (touched : Nat → Prop) (actor next : Actor) : Prop where
  address : next.address = actor.address
  program : next.program = actor.program
  generation : next.publicGeneration = actor.publicGeneration
  views : ∀ index, ¬touched index → next.views[index]? = actor.views[index]?

theorem Touches.refl (touched : Nat → Prop) (actor : Actor) : actor.Touches touched actor :=
  ⟨rfl, rfl, rfl, fun _ _ => rfl⟩

theorem Touches.trans {touched : Nat → Prop} {first second third : Actor}
    (before : first.Touches touched second) (after : second.Touches touched third) :
    first.Touches touched third :=
  ⟨after.address.trans before.address, after.program.trans before.program,
    after.generation.trans before.generation,
    fun index apart => (after.views index apart).trans (before.views index apart)⟩

theorem Touches.mono {touched wider : Nat → Prop} {actor next : Actor}
    (touches : actor.Touches touched next) (within : ∀ index, touched index → wider index) :
    actor.Touches wider next :=
  ⟨touches.address, touches.program, touches.generation,
    fun index apart => touches.views index fun isTouched => apart (within index isTouched)⟩

variable {actor : Actor} {index : Nat} {view : ResidentView}

theorem ledger_header (found : actor.views[index]? = some view) :
    actor.ledger.headers[index]? = some view.header := by
  show (actor.views.map _)[index]? = _
  rw [getElem?_map, found]
  rfl

theorem view_of_ledger {header : KernelEndpointHeader}
    (found : actor.ledger.headers[index]? = some header) :
    ∃ view, actor.views[index]? = some view ∧ view.header = header := by
  rw [show actor.ledger.headers = actor.views.map (·.header) from rfl, getElem?_map] at found
  exact Option.map_eq_some_iff.mp found

theorem setView_touches (actor : Actor) (index : Nat) (view : ResidentView) :
    actor.Touches (· = index) (actor.setView index view) :=
  ⟨rfl, rfl, rfl, fun _ apart => getElem?_set_ne fun same => apart same.symm⟩

theorem setHeader_touches (actor : Actor) (index : Nat) (view : ResidentView)
    (header : KernelEndpointHeader) :
    actor.Touches (· = index) (actor.setHeader index view header) :=
  ⟨rfl, rfl, rfl, fun _ apart => getElem?_set_ne fun same => apart same.symm⟩

/-- Operations are not in the ledger. -/
theorem ledger_setView (found : actor.views[index]? = some view) {other : ResidentView}
    (sameHeader : other.header = view.header) :
    (actor.setView index other).ledger = actor.ledger := by
  obtain ⟨inBounds, rfl⟩ := List.getElem?_eq_some_iff.mp found
  have headers : (actor.views.set index other).map (·.header) = actor.views.map (·.header) := by
    have same : other.header =
        (actor.views.map (·.header)).get ⟨index, by simpa using inBounds⟩ := by simp [sameHeader]
    rw [map_set, same]
    exact set_getElem_self _
  simp only [ledger, setView, headers]

theorem headers_setHeader (actor : Actor) (index : Nat) (view : ResidentView)
    (header : KernelEndpointHeader) :
    (actor.setHeader index view header).views.map (·.header) =
      (actor.views.map (·.header)).set index header := by
  show (actor.views.set index _).map _ = _
  rw [map_set]

/-! ### The records of roles -/

theorem get_spec {role : UInt8} (isGet : actor.get role = some index) :
    ∃ view, actor.views[index]? = some view ∧ view.header.role = role := by
  obtain ⟨inBounds, hasRole, -⟩ := findIdx?_eq_some_iff_getElem.mp isGet
  exact ⟨_, getElem?_eq_getElem inBounds, beq_iff_eq.mp hasRole⟩

/-- A record is found by its role. -/
theorem InOrder.get (inOrder : actor.InOrder) (found : actor.views[index]? = some view) :
    actor.get view.header.role = some index := by
  have hasRole : ∃ other ∈ actor.views, (other.header.role == view.header.role) = true :=
    ⟨view, mem_of_getElem? found, beq_self_eq_true _⟩
  have isGet := findIdx?_eq_some_of_exists hasRole
  obtain ⟨other, otherFound, role⟩ := get_spec isGet
  rw [Actor.get, isGet,
    inOrder.index_eq_of_role (ledger_header otherFound) (ledger_header found) role]

/-! ### Issue and retire -/

theorem InOrder.checkedNext (inOrder : actor.InOrder) :
    checkedNext actor.liveViews = some (actor.liveViews + 1) := by
  have small : actor.liveViews.toNat ≤ 256 := inOrder.live_le
  rw [Hibana.checkedNext, if_pos (by omega)]

theorem InOrder.checkedPrev (inOrder : actor.InOrder) (found : actor.views[index]? = some view)
    (isIssued : view.header.isIssued = true) :
    checkedPrev actor.liveViews = some (actor.liveViews - 1) := by
  have pos : 0 < actor.liveViews.toNat :=
    inOrder.live_pos (ledger_header found) isIssued
  have nonzero : actor.liveViews ≠ 0 := by
    intro isZero
    rw [isZero] at pos
    exact absurd pos (by decide)
  rw [Hibana.checkedPrev, if_neg nonzero]

/-- An actor with one more live view. -/
def issued (actor : Actor) (index : Nat) (view : ResidentView) (generation : UInt32) : Actor :=
  { actor.setHeader index view { view.header with viewGeneration := generation } with
    viewGeneration := generation
    liveViews := actor.liveViews + 1 }

theorem ledger_issued (actor : Actor) (index : Nat) (view : ResidentView) (generation : UInt32) :
    (actor.issued index view generation).ledger =
      actor.ledger.issue index view.header generation := by
  simp only [ledger, issued, Ledger.issue, headers_setHeader]
  rfl

theorem issued_touches (actor : Actor) (index : Nat) (view : ResidentView) (generation : UInt32) :
    actor.Touches (· = index) (actor.issued index view generation) :=
  ⟨rfl, rfl, rfl, (actor.setHeader_touches index view _).views⟩

/-- An actor with one less live view. -/
def retired (actor : Actor) (index : Nat) (view : ResidentView) : Actor :=
  { actor.setHeader index view
      { view.header with viewGeneration := view.header.viewGeneration + 1 } with
    liveViews := actor.liveViews - 1 }

theorem ledger_retired (actor : Actor) (index : Nat) (view : ResidentView) :
    (actor.retired index view).ledger = actor.ledger.retire index view.header := by
  simp only [ledger, retired, Ledger.retire, headers_setHeader]
  rfl

theorem retired_touches (actor : Actor) (index : Nat) (view : ResidentView) :
    actor.Touches (· = index) (actor.retired index view) :=
  ⟨rfl, rfl, rfl, (actor.setHeader_touches index view _).views⟩

namespace InOrder

variable (inOrder : actor.InOrder)

include inOrder

theorem retireGeneration (found : actor.views[index]? = some view)
    (isIssued : view.header.isIssued = true) :
    view.header.retireGeneration =
      .ok { view.header with viewGeneration := view.header.viewGeneration + 1 } := by
  have le := inOrder.issued_le (mem_of_getElem? (ledger_header found)) isIssued
  have below := inOrder.below
  rw [KernelEndpointHeader.retireGeneration, if_pos isIssued, if_pos (by omega)]

/-- A first entry issues a view that was never issued, or nothing. -/
theorem issueInitialView (entered : Bool) (role : UInt8) :
    actor.issueInitialView entered role = .ok (false, actor) ∨
      entered = false ∧ ∃ index view generation, actor.views[index]? = some view ∧
        view.header.viewGeneration = 0 ∧
        nextViewGeneration actor.viewGeneration = some generation ∧
        actor.issueInitialView entered role = .ok (true, actor.issued index view generation) := by
  rw [Actor.issueInitialView]
  cases isGet : actor.get role with
  | none => exact .inl rfl
  | some index =>
    obtain ⟨view, found, -⟩ := get_spec isGet
    simp only [found, invariantSome_some, Run.bind_ok]
    cases entered with
    | true => exact .inl rfl
    | false =>
      by_cases owner : actor.role = (actor.program.initialActorFor role).getD role
      · rw [if_neg Bool.false_ne_true, if_neg (not_not.mpr owner)]
        cases isNext : nextViewGeneration actor.viewGeneration with
        | none => exact .inl rfl
        | some generation =>
          cases isIssue : view.header.issueInitial generation with
          | none =>
            simp only [isIssue]
            exact .inl rfl
          | some header =>
            obtain ⟨wasZero, isHeader⟩ := KernelEndpointHeader.issueInitial_eq_some isIssue
            refine .inr ⟨rfl, index, view, generation, found, wasZero, rfl, ?_⟩
            simp only [isIssue, inOrder.checkedNext, isHeader]
            rfl
      · rw [if_neg Bool.false_ne_true, if_pos owner]
        exact .inl rfl

/-- A live view is retired, and waits for the end of its I/O. -/
theorem retireView (found : actor.views[index]? = some view)
    (isIssued : view.header.isIssued = true) :
    actor.retireView index view = .ok
      { actor.retired index view with retiredViews := index :: actor.retiredViews } := by
  have live : view.header.liveGeneration ≠ 0 := by
    rw [Ne, inOrder.liveGeneration_eq_zero_iff (ledger_header found), isIssued]
    exact Bool.false_ne_true.symm
  rw [Actor.retireView, if_neg live, inOrder.retireGeneration found isIssued, Run.bind_ok,
    inOrder.checkedPrev found isIssued]
  rfl

/-- A view in order may be entered. -/
theorem enterKernel (found : actor.views[index]? = some view) :
    actor.enterKernel index = .ok () := by
  have bounded : view.header.viewGeneration.toNat ≤ actor.viewGeneration.toNat + 1 :=
    inOrder.bounded _ (mem_of_getElem? (ledger_header found))
  have below := view.header.viewGeneration.toNat_lt
  rw [Actor.enterKernel, found]
  simp only
  rw [if_neg (by omega)]

end InOrder

/-! ### The end of the I/O of retired views -/

/-- End the I/O of one view. -/
def finishView (actor : Actor) (index : Nat) : Actor :=
  match actor.views[index]? with
  | some view => actor.setView index view.finishIo
  | none => actor

theorem finishView_touches (actor : Actor) (index : Nat) :
    actor.Touches (· = index) (actor.finishView index) := by
  rw [finishView]
  split
  · exact actor.setView_touches index _
  · exact .refl _ _

theorem ledger_finishView (actor : Actor) (index : Nat) :
    (actor.finishView index).ledger = actor.ledger := by
  rw [finishView]
  split
  · next found => exact ledger_setView found rfl
  · rfl

variable {finish : Actor → Nat → Run Actor}

/-- A pass over views that ends the I/O of each of them. -/
theorem foldlM_finishView {queue : List Nat}
    (each : ∀ other : Actor, other.ledger = actor.ledger → ∀ index ∈ queue,
      finish other index = .ok (other.finishView index)) :
    ∃ next, queue.foldlM finish actor = .ok next ∧ next.ledger = actor.ledger ∧
      actor.Touches (· ∈ queue) next := by
  induction queue generalizing actor with
  | nil => exact ⟨actor, rfl, rfl, .refl _ _⟩
  | cons head rest hyp =>
    have first := each actor rfl head mem_cons_self
    have same := ledger_finishView actor head
    have later : ∀ other : Actor, other.ledger = (actor.finishView head).ledger →
        ∀ index ∈ rest, finish other index = .ok (other.finishView index) :=
      fun other isSame index mem =>
        each other (isSame.trans same) index (mem_cons_of_mem _ mem)
    obtain ⟨next, isOk, ledger, touches⟩ := hyp later
    refine ⟨next, ?_, ledger.trans same, ?_⟩
    · rw [foldlM_cons, first, Run.bind_ok]
      exact isOk
    · refine ((actor.finishView_touches head).mono ?_).trans (touches.mono ?_)
      · rintro index rfl
        exact mem_cons_self
      · exact fun index mem => mem_cons_of_mem _ mem

/-- What a pass over the retired views leaves. -/
structure Settles (actor next : Actor) : Prop where
  ledger : next.ledger = { actor.ledger with waiting := [] }
  touches : actor.Touches (· ∈ actor.retiredViews) next

/-- Behind a pass that ends the I/O of every retired view, none is left. -/
theorem exists_settles
    (each : ∀ other : Actor, other.ledger = actor.ledger → ∀ index ∈ actor.retiredViews,
      finish other index = .ok (other.finishView index)) :
    ∃ next, actor.retiredViews.foldlM finish actor = .ok next ∧
      actor.Settles { next with retiredViews := [] } := by
  obtain ⟨next, isOk, ledger, touches⟩ := foldlM_finishView each
  refine ⟨next, isOk, by rw [← ledger]; rfl, ?_⟩
  exact ⟨touches.address, touches.program, touches.generation, touches.views⟩

namespace InOrder

variable (inOrder : actor.InOrder)

include inOrder

theorem waiting_view {other : Actor} (same : other.ledger = actor.ledger)
    (waits : index ∈ actor.retiredViews) :
    ∃ view, other.views[index]? = some view ∧
      view.header.viewGeneration.toNat ≤ other.viewGeneration.toNat + 1 := by
  obtain ⟨header, found, -⟩ := inOrder.dormant index waits
  have bounded := inOrder.bounded _ (mem_of_getElem? found)
  rw [← same] at found
  obtain ⟨view, isView, rfl⟩ := view_of_ledger found
  refine ⟨view, isView, ?_⟩
  rw [show other.viewGeneration = actor.viewGeneration from congrArg Ledger.counter same]
  exact bounded

theorem drainRetirements : ∃ next, actor.drainRetirements = .ok next ∧ actor.Settles next := by
  have each : ∀ other : Actor, other.ledger = actor.ledger → ∀ index ∈ actor.retiredViews,
      finishRetiredView other index = .ok (other.finishView index) := by
    intro other same index waits
    obtain ⟨view, found, bounded⟩ := inOrder.waiting_view same waits
    have below := view.header.viewGeneration.toNat_lt
    rw [finishRetiredView, finishView, Actor.enterKernel, found]
    simp only [invariantSome_some, Run.bind_ok]
    rw [if_neg (by omega)]
    rfl
  obtain ⟨next, isOk, settles⟩ := exists_settles each
  refine ⟨{ next with retiredViews := [] }, ?_, settles⟩
  rw [Actor.drainRetirements, isOk]
  rfl

theorem reconcileRetirements (found : actor.views[index]? = some view)
    (isIssued : view.header.isIssued = true) :
    ∃ next, actor.reconcileRetirements index = .ok next ∧ actor.Settles next := by
  have apart := inOrder.not_waiting (ledger_header found) isIssued
  have each : ∀ other : Actor, other.ledger = actor.ledger → ∀ position ∈ actor.retiredViews,
      reconcileView index other position = .ok (other.finishView position) := by
    intro other same position waits
    obtain ⟨waiting, isWaiting, -⟩ := inOrder.waiting_view same waits
    have differs : position ≠ index := fun isSame => apart (isSame ▸ waits)
    rw [reconcileView, finishView, isWaiting, if_neg differs]
    rfl
  obtain ⟨next, isOk, settles⟩ := exists_settles each
  refine ⟨{ next with retiredViews := [] }, ?_, settles⟩
  rw [Actor.reconcileRetirements, isOk]
  rfl

end InOrder

/-! ### Endpoints as payloads -/

/-- An endpoint that may be sent from another view of the actor. -/
structure Sendable (actor : Actor) (own : Nat) (transfer : EndpointTransfer) (role : UInt8)
    (view : ResidentView) : Prop where
  address : transfer.ptr.actor = actor.address
  found : actor.views[transfer.ptr.index]? = some view
  apart : transfer.ptr.index ≠ own
  role : view.header.role = role
  fits : transfer.handle.matchesHeader view.header = true

theorem Sendable.isIssued {own : Nat} {transfer : EndpointTransfer} {role : UInt8}
    (sendable : actor.Sendable own transfer role view) : view.header.isIssued = true :=
  (EndpointHandle.matchesHeader_iff.mp sendable.fits).1

namespace InOrder

variable {own : Nat} {transfer : EndpointTransfer} {role : UInt8} {atom : EffAtom}
  (inOrder : actor.InOrder)

include inOrder

theorem outgoingTransferView_eq_ok
    (isOk : actor.outgoingTransferView own transfer role = .ok index) :
    index = transfer.ptr.index ∧ ∃ view, actor.Sendable own transfer role view := by
  rw [outgoingTransferView] at isOk
  split at isOk
  · cases isOk
  · next address =>
    split at isOk
    · cases isOk
    · next view found =>
      split at isOk
      · cases isOk
      · next fits =>
        rw [not_or, not_or, not_not, Bool.not_eq_false] at fits
        obtain ⟨apart, isRole, fits⟩ := fits
        rw [← isRole, inOrder.get found] at isOk
        exact ⟨(Except.ok.inj isOk).symm, view, not_not.mp address, found, apart, isRole, fits⟩

theorem outgoingTransferView (sendable : actor.Sendable own transfer role view) :
    actor.outgoingTransferView own transfer role = .ok transfer.ptr.index := by
  rw [Actor.outgoingTransferView, if_neg (not_not.mpr sendable.address), sendable.found]
  simp only
  rw [if_neg (by simp [sendable.apart, sendable.role, sendable.fits]), ← sendable.role,
    inOrder.get sendable.found]

/-- A view without an operation is borrowed as a payload, or nothing happens. -/
theorem reserveTransferOut (own : Nat) (transfer : EndpointTransfer) (role : UInt8) :
    (∃ error, actor.reserveTransferOut own transfer role = .ok (.error error, actor)) ∨
      ∃ view, actor.Sendable own transfer role view ∧
        actor.reserveTransferOut own transfer role = .ok (.ok (), actor.setView transfer.ptr.index
          (view.setOperation view.primaryLane .sendPayload)) := by
  rw [Actor.reserveTransferOut]
  cases isOut : actor.outgoingTransferView own transfer role with
  | error error => exact .inl ⟨error, rfl⟩
  | ok index =>
    obtain ⟨rfl, view, sendable⟩ := inOrder.outgoingTransferView_eq_ok isOut
    simp only [sendable.found, invariantSome_some, Run.bind_ok]
    by_cases busy : (view.operations.any (· != .idle)) = true
    · rw [if_pos busy]
      exact .inl ⟨_, rfl⟩
    · have idle : view.primaryOperation = .idle := by
        rw [any_eq_true, not_exists] at busy
        by_contra notIdle
        exact busy view.primaryOperation ⟨get_mem _ _, bne_iff_ne.mpr notIdle⟩
      refine .inr ⟨view, sendable, ?_⟩
      rw [if_neg busy, idle]
      rfl

theorem preflightTransferOut (sendable : actor.Sendable own transfer role view)
    (borrowed : view.primaryOperation = .sendPayload) :
    actor.preflightTransferOut own transfer role = .ok () := by
  rw [Actor.preflightTransferOut, inOrder.outgoingTransferView sendable, Run.bind_ok,
    sendable.found]
  simp only
  rw [if_neg (not_not.mpr borrowed)]

/-- The commit of a send retires the view that was borrowed. -/
theorem commitPreparedView_retire (sendable : actor.Sendable own transfer role view)
    (payload : atom.payload = .endpoint role) (borrowed : view.primaryOperation = .sendPayload) :
    actor.commitPreparedView own atom.sender (some atom) (some (.retire transfer)) =
      .ok (none, (actor.setView transfer.ptr.index
        (view.setOperation view.primaryLane .idle)).retired transfer.ptr.index
          (view.setOperation view.primaryLane .idle)) := by
  have inBounds : transfer.ptr.index < actor.views.length :=
    (List.getElem?_eq_some_iff.mp sendable.found).1
  have found : (actor.setView transfer.ptr.index
      (view.setOperation view.primaryLane .idle)).views[transfer.ptr.index]? =
        some (view.setOperation view.primaryLane .idle) := by
    exact getElem?_set_self inBounds
  have preflight : actor.preflightViewCommit own atom.sender (some atom)
      (some (.retire transfer)) = .ok (actor.liveViews - 1) := by
    simp only [Actor.preflightViewCommit, payload]
    rw [if_neg (not_not.mpr rfl), inOrder.preflightTransferOut sendable borrowed]
    rw [inOrder.checkedPrev sendable.found sendable.isIssued]
    rfl
  have retires := inOrder.retireGeneration sendable.found sendable.isIssued
  rw [Actor.commitPreparedView, preflight]
  simp only [sendable.found, invariantSome_some, Run.bind_ok]
  rw [sendable.role, inOrder.outgoingTransferView sendable]
  simp only [sendable.found, invariantSome_some, Run.bind_ok, borrowed]
  have finishes : PublicActiveOp.sendPayload.transition .finishSendPayload = (.held, .idle) := rfl
  rw [if_neg (by decide), finishes]
  simp only [found, invariantSome_some, Run.bind_ok]
  rw [show (view.setOperation view.primaryLane .idle).header = view.header from rfl, retires]
  rfl

/-- The commit of a receive issues the view that was prepared. -/
theorem commitPreparedView_issue (own : Nat) {issue : PreparedViewIssue}
    (found : actor.views[issue.index]? = some view)
    (payload : atom.payload = .endpoint view.header.role) (notIssued : view.header.isIssued = false)
    (isNext : nextViewGeneration actor.viewGeneration = some issue.generation) :
    ∃ handle, actor.commitPreparedView own atom.receiver (some atom) (some (.issue issue)) =
      .ok (some ⟨⟨actor.address, issue.index⟩, handle⟩,
        actor.issued issue.index view issue.generation) := by
  obtain ⟨odd, sum, below⟩ := nextViewGeneration_spec isNext
  have dormant : view.header.liveGeneration = 0 :=
    (inOrder.liveGeneration_eq_zero_iff (ledger_header found)).mpr notIssued
  have isOdd : ¬issue.generation &&& 1 = 0 := by
    rw [and_one_eq_zero_iff]
    omega
  have notMax : issue.generation ≠ generationMax := by
    rw [Ne, eq_generationMax_iff]
    omega
  have preflight : actor.preflightViewCommit own atom.receiver (some atom)
      (some (.issue issue)) = .ok (actor.liveViews + 1) := by
    simp only [Actor.preflightViewCommit, payload, found]
    rw [if_neg (by simp [dormant, isNext]), inOrder.checkedNext]
    rfl
  have receives : view.header.issueReceived issue.generation =
      .ok { view.header with viewGeneration := issue.generation } := by
    rw [KernelEndpointHeader.issueReceived, if_neg (by simp [notIssued, isOdd, notMax])]
  have isOne : issue.generation &&& 1 = 1 := by
    rw [and_one_eq_one_iff]
    omega
  have live : actor.publicGeneration ≠ 0 := inOrder.isPublic
  refine ⟨⟨actor.publicGeneration, issue.generation, live, isOne, notMax⟩, ?_⟩
  rw [Actor.commitPreparedView, preflight]
  simp only [found, invariantSome_some, Run.bind_ok, receives]
  rw [EndpointHandle.new, dif_pos live, dif_pos ⟨isOne, notMax⟩]
  rfl

/-- A received endpoint announces a dormant view of its role, with the next generation. -/
theorem prepareReceivedView {ordinal : Nat} (event : actor.program.events[ordinal]? = some atom)
    (payload : List UInt8) :
    ∃ result, actor.prepareReceivedView ordinal payload = .ok result ∧
      ∀ issue, result = .ok (some issue) → ∃ view, actor.views[issue.index]? = some view ∧
        atom.payload = .endpoint view.header.role ∧ view.header.isIssued = false ∧
        nextViewGeneration actor.viewGeneration = some issue.generation := by
  rw [Actor.prepareReceivedView, ActorProgram.eventAtomAt, event]
  simp only [Run.bind_ok]
  cases carried : atom.payload with
  | wire schema => exact ⟨_, rfl, nofun⟩
  | endpoint role =>
    simp only
    split
    · exact ⟨_, rfl, nofun⟩
    · cases isGet : actor.get role with
      | none => exact ⟨_, rfl, nofun⟩
      | some index =>
        obtain ⟨view, found, isRole⟩ := get_spec isGet
        simp only [found, invariantSome_some, Run.bind_ok]
        split
        · exact ⟨_, rfl, nofun⟩
        · next dormant =>
          cases isNext : nextViewGeneration actor.viewGeneration with
          | none => exact ⟨_, rfl, nofun⟩
          | some generation =>
            refine ⟨_, rfl, ?_⟩
            rintro issue ⟨⟩
            refine ⟨view, found, by rw [isRole], ?_, rfl⟩
            exact (inOrder.liveGeneration_eq_zero_iff (ledger_header found)).mp (not_not.mp dormant)

/-- A kernel is left while a view is live. -/
theorem leaveKernel (found : actor.views[index]? = some view)
    (isIssued : view.header.isIssued = true) :
    ∃ next, actor.leaveKernel = .ok next ∧ actor.Settles next := by
  obtain ⟨next, isOk, settles⟩ := inOrder.drainRetirements
  have live : next.liveViews ≠ 0 := by
    have pos : 0 < actor.liveViews.toNat :=
      inOrder.live_pos (ledger_header found) isIssued
    have same : next.liveViews = actor.liveViews := congrArg Ledger.live settles.ledger
    intro isZero
    rw [← same, isZero] at pos
    exact absurd pos (by decide)
  refine ⟨next, ?_, settles⟩
  rw [Actor.leaveKernel, isOk, Run.bind_ok, if_neg live]
  rfl

/-- A dropped endpoint retires its view, unless its handle no longer fits. -/
theorem dropEndpoint (entered : Bool) (address : transfer.ptr.actor = actor.address)
    (found : actor.views[transfer.ptr.index]? = some view) :
    actor.dropEndpoint entered transfer = if transfer.handle.matchesHeader view.header then do
        let next : Actor := { actor.retired transfer.ptr.index view with
          retiredViews := transfer.ptr.index :: actor.retiredViews }
        if entered then
          next.enterKernel transfer.ptr.index
          return (true, next)
        else return (true, ← next.drainRetirements)
      else .ok (false, actor) := by
  rw [Actor.dropEndpoint, if_neg (not_not.mpr address), found]
  simp only [invariantSome_some, Run.bind_ok]
  cases fits : transfer.handle.matchesHeader view.header with
  | false => rfl
  | true =>
    have isIssued := (EndpointHandle.matchesHeader_iff.mp fits).1
    rw [if_neg (by decide), inOrder.get found, if_pos rfl]
    simp only [invariantSome_some, Run.bind_ok, found, inOrder.retireView found isIssued]

end InOrder

end Actor

end Hibana
