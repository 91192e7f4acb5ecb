/-
This file has the logical views of an actor.

An actor has one record for each role it can act as. A record is live while its generation
is odd; a handle names a record by the generation it was issued with, so a handle that was
given away no longer fits the record. Views are issued when they are first entered and when
an endpoint is received, and retired when an endpoint is sent away or dropped. All of them
draw their generations from one counter of the actor.
-/

import HibanaChoreography.Library.Run
import HibanaChoreography.Lowering.EffList

namespace Hibana

open Outcome

/-! ### Generations and headers -/

/-- The generation that is never issued: it has no successor. -/
def generationMax : UInt32 := 4294967295

def nextViewGeneration (current : UInt32) : Option UInt32 :=
  if current &&& 1 = 0 then none
  else if current.toNat + 2 < 2 ^ 32 ∧ current + 2 ≠ generationMax then some (current + 2)
  else none

structure KernelEndpointHeader where
  generation : UInt32
  viewGeneration : UInt32
  role : UInt8
  deriving DecidableEq, Repr

namespace KernelEndpointHeader

def new (generation : UInt32) (role : UInt8) : KernelEndpointHeader :=
  ⟨generation, 0, role⟩

def isIssued (header : KernelEndpointHeader) : Bool :=
  header.viewGeneration &&& 1 == 1

/-- The generation of the allocation while the view is live, and zero otherwise. -/
def liveGeneration (header : KernelEndpointHeader) : UInt32 :=
  if header.isIssued then header.generation else 0

def issueInitial (header : KernelEndpointHeader) (generation : UInt32) :
    Option KernelEndpointHeader :=
  if header.viewGeneration ≠ 0 ∨ generation &&& 1 = 0 ∨ generation = generationMax then none
  else some { header with viewGeneration := generation }

def issueReceived (header : KernelEndpointHeader) (generation : UInt32) :
    Run KernelEndpointHeader :=
  if header.isIssued ∨ generation &&& 1 = 0 ∨ generation = generationMax then .error .invariant
  else .ok { header with viewGeneration := generation }

def retireGeneration (header : KernelEndpointHeader) : Run KernelEndpointHeader :=
  if header.isIssued then
    if header.viewGeneration.toNat + 1 < 2 ^ 32 then
      .ok { header with viewGeneration := header.viewGeneration + 1 }
    else .error .invariant
  else .ok header

end KernelEndpointHeader

/-- The tag of an issued view. -/
structure EndpointHandle where
  generation : UInt32
  viewGeneration : UInt32
  isLive : generation ≠ 0
  isIssued : viewGeneration &&& 1 = 1 ∧ viewGeneration ≠ generationMax
  deriving DecidableEq

namespace EndpointHandle

def new (generation viewGeneration : UInt32) : Run EndpointHandle :=
  if isLive : generation ≠ 0 then
    if isIssued : viewGeneration &&& 1 = 1 ∧ viewGeneration ≠ generationMax then
      .ok ⟨generation, viewGeneration, isLive, isIssued⟩
    else .error (.panic "an endpoint handle requires an issued view generation")
  else .error (.panic "an endpoint handle requires a live generation")

def matchesHeader (handle : EndpointHandle) (header : KernelEndpointHeader) : Bool :=
  header.liveGeneration == handle.generation && header.viewGeneration == handle.viewGeneration

end EndpointHandle

/-! ### The operations of a view -/

inductive PublicActiveOp where
  | idle
  | poisoned
  | send
  | recv
  | offer
  | routeBranch
  | branchRecv
  | branchSend
  | sendPayload
  deriving DecidableEq, Repr

inductive PublicOpEdge where
  | beginOffer
  | publishRouteBranch
  | finishOffer
  | finishRouteBranch
  | beginSend
  | beginBranchSend
  | finishSend
  | finishBranchSend
  | beginRecv
  | beginBranchRecv
  | finishRecv
  | finishBranchRecv
  | beginSendPayload
  | finishSendPayload
  deriving DecidableEq, Repr

namespace PublicOpEdge

def expected : PublicOpEdge → PublicActiveOp
  | beginOffer | beginSend | beginRecv | beginSendPayload => .idle
  | publishRouteBranch | finishOffer => .offer
  | finishRouteBranch | beginBranchSend | beginBranchRecv => .routeBranch
  | finishSend => .send
  | finishBranchSend => .branchSend
  | finishRecv => .recv
  | finishBranchRecv => .branchRecv
  | finishSendPayload => .sendPayload

def next : PublicOpEdge → PublicActiveOp
  | beginOffer => .offer
  | publishRouteBranch => .routeBranch
  | beginSend => .send
  | beginBranchSend => .branchSend
  | beginRecv => .recv
  | beginBranchRecv => .branchRecv
  | beginSendPayload => .sendPayload
  | finishOffer | finishRouteBranch | finishSend | finishBranchSend | finishRecv
  | finishBranchRecv | finishSendPayload => .idle

end PublicOpEdge

inductive PublicOpLease where
  | rejected
  | held
  | faulted
  deriving DecidableEq, Repr

def PublicActiveOp.transition (phase : PublicActiveOp) (edge : PublicOpEdge) :
    PublicOpLease × PublicActiveOp :=
  if phase = .poisoned then (.faulted, .poisoned)
  else if phase = edge.expected then (.held, edge.next)
  else (.rejected, .poisoned)

/-- The record of a logical view: its header, one operation for each of its lanes, and the lane
its own operation uses. -/
structure ResidentView where
  header : KernelEndpointHeader
  operations : List PublicActiveOp
  primaryLane : Nat
  hasPrimary : primaryLane < operations.length
  deriving DecidableEq

namespace ResidentView

def primaryOperation (view : ResidentView) : PublicActiveOp :=
  view.operations.get ⟨view.primaryLane, view.hasPrimary⟩

def setOperation (view : ResidentView) (lane : Nat) (phase : PublicActiveOp) : ResidentView :=
  { view with
    operations := view.operations.set lane phase
    hasPrimary := by rw [List.length_set]; exact view.hasPrimary }

theorem primaryOperation_setOperation (view : ResidentView) (phase : PublicActiveOp) :
    (view.setOperation view.primaryLane phase).primaryOperation = phase :=
  List.getElem_set_self _

theorem header_setOperation (view : ResidentView) (lane : Nat) (phase : PublicActiveOp) :
    (view.setOperation lane phase).header = view.header := rfl

/-- What the end of the I/O of a view leaves of its operations. -/
def finishIo (view : ResidentView) : ResidentView :=
  { view with
    operations := view.operations.map fun _ => .idle
    hasPrimary := by rw [List.length_map]; exact view.hasPrimary }

end ResidentView

/-! ### The actor -/

/-- What an actor reads of its program: the events, and the first owners of the delegated roles. -/
structure ActorProgram where
  events : List EffAtom
  initialActors : List (UInt8 × UInt8)
  deriving DecidableEq

namespace ActorProgram

def initialActorFor (program : ActorProgram) (role : UInt8) : Option UInt8 :=
  (program.initialActors.find? (·.1 == role)).map (·.2)

def eventAtomAt (program : ActorProgram) (ordinal : Nat) : Run EffAtom :=
  match program.events[ordinal]? with
  | some atom => .ok atom
  | none => .error .invariant

end ActorProgram

/-- An actor. A record is named by its position; the retired views wait for the end of their I/O,
the last one first. -/
structure Actor where
  address : Nat
  role : UInt8
  program : ActorProgram
  publicGeneration : UInt32
  viewGeneration : UInt32
  liveViews : UInt16
  views : List ResidentView
  retiredViews : List Nat
  deriving DecidableEq

/-- A pointer to the header of a view of some actor. -/
structure HeaderPtr where
  actor : Nat
  index : Nat
  deriving DecidableEq, Repr

structure EndpointTransfer where
  ptr : HeaderPtr
  handle : EndpointHandle
  deriving DecidableEq

structure PreparedViewIssue where
  index : Nat
  generation : UInt32
  deriving DecidableEq

inductive PreparedViewCommit where
  | retire (transfer : EndpointTransfer)
  | issue (issue : PreparedViewIssue)
  deriving DecidableEq

inductive KernelError where
  | sendPhaseInvariant
  | recvPhaseInvariant
  | cursorInvariant
  deriving DecidableEq, Repr

def wireEnvelope (resource : UInt8) (event : UInt16) : List UInt8 :=
  [resource, (event >>> 8).toUInt8, event.toUInt8]

def checkedNext (count : UInt16) : Option UInt16 :=
  if count.toNat + 1 < 2 ^ 16 then some (count + 1) else none

def checkedPrev (count : UInt16) : Option UInt16 :=
  if count = 0 then none else some (count - 1)

/-- An unwrapped option: nothing in it is an invariant failure. -/
def invariantSome {Value : Type} : Option Value → Run Value
  | some value => .ok value
  | none => .error .invariant

@[simp] theorem invariantSome_some {Value : Type} (value : Value) :
    invariantSome (some value) = .ok value := rfl

namespace Actor

/-- The record of one role. Only the role that is entered first is issued. -/
def initView (publicGeneration : UInt32) (initialRole : UInt8) (primaryLane : Nat)
    (layout : UInt8 × Nat) : Run ResidentView :=
  let primary := if layout.1 = initialRole then primaryLane else 0
  if hasPrimary : primary < layout.2 then
    let view : ResidentView :=
      ⟨.new publicGeneration layout.1, List.replicate layout.2 .idle, primary,
        by rw [List.length_replicate]; exact hasPrimary⟩
    if layout.1 = initialRole then
      match view.header.issueInitial 1 with
      | some header => .ok { view with header }
      | none => .error .invariant
    else .ok view
  else .error .invariant

/-- The actor behind its first entry. The layout has the roles of its views and their lanes. -/
def new (address : Nat) (role : UInt8) (program : ActorProgram) (publicGeneration : UInt32)
    (initialRole : UInt8) (primaryLane : Nat) (layout : List (UInt8 × Nat)) : Run Actor := do
  let views ← layout.mapM (initView publicGeneration initialRole primaryLane)
  return ⟨address, role, program, publicGeneration, 1, 1, views, []⟩

/-- The position of the record of a role. The records are sorted by role, so the binary search
finds the only one. -/
def get (actor : Actor) (role : UInt8) : Option Nat :=
  actor.views.findIdx? (·.header.role == role)

def setHeader (actor : Actor) (index : Nat) (view : ResidentView) (header : KernelEndpointHeader) :
    Actor :=
  { actor with views := actor.views.set index { view with header } }

def setView (actor : Actor) (index : Nat) (view : ResidentView) : Actor :=
  { actor with views := actor.views.set index view }

/-- Issue a view that is entered for the first time. A kernel that was entered holds the progress
of the actor. -/
def issueInitialView (actor : Actor) (entered : Bool) (role : UInt8) : Run (Bool × Actor) :=
  match actor.get role with
  | none => .ok (false, actor)
  | some index => do
    let view ← invariantSome actor.views[index]?
    if entered then return (false, actor)
    if actor.role ≠ (actor.program.initialActorFor role).getD role then return (false, actor)
    match nextViewGeneration actor.viewGeneration with
    | none => return (false, actor)
    | some generation =>
      match view.header.issueInitial generation with
      | none => return (false, actor)
      | some header =>
        let liveViews ← invariantSome (checkedNext actor.liveViews)
        return (true, { actor.setHeader index view header with
          viewGeneration := generation, liveViews })

def retireView (actor : Actor) (index : Nat) (view : ResidentView) : Run Actor :=
  if view.header.liveGeneration = 0 then .error .invariant
  else do
    let header ← view.header.retireGeneration
    let liveViews ← invariantSome (checkedPrev actor.liveViews)
    return { actor.setHeader index view header with
      retiredViews := index :: actor.retiredViews, liveViews }

/-- Enter the kernel of a view. -/
def enterKernel (actor : Actor) (index : Nat) : Run Unit :=
  match actor.views[index]? with
  | none => .error .invariant
  | some view =>
    if view.header.viewGeneration.toNat > min (actor.viewGeneration.toNat + 1) (2 ^ 32 - 1) then
      .error .invariant
    else .ok ()

/-- End the I/O of one retired view. -/
def finishRetiredView (actor : Actor) (index : Nat) : Run Actor := do
  let view ← invariantSome actor.views[index]?
  actor.enterKernel index
  return actor.setView index view.finishIo

/-- End the I/O of the retired views outside of any kernel. -/
def drainRetirements (actor : Actor) : Run Actor := do
  let actor ← actor.retiredViews.foldlM finishRetiredView actor
  return { actor with retiredViews := [] }

/-- End the I/O of a retired view from the kernel of another one. -/
def reconcileView (own : Nat) (actor : Actor) (index : Nat) : Run Actor :=
  if index = own then .error .invariant
  else do
    let view ← invariantSome actor.views[index]?
    return actor.setView index view.finishIo

def reconcileRetirements (actor : Actor) (own : Nat) : Run Actor := do
  let actor ← actor.retiredViews.foldlM (reconcileView own) actor
  return { actor with retiredViews := [] }

/-- Leave the kernel of a view, which is still live. -/
def leaveKernel (actor : Actor) : Run Actor := do
  let actor ← actor.drainRetirements
  if actor.liveViews = 0 then .error .invariant else return actor

/-! ### Endpoints as payloads -/

def outgoingTransferView (actor : Actor) (own : Nat) (transfer : EndpointTransfer) (role : UInt8) :
    Except KernelError Nat :=
  if transfer.ptr.actor ≠ actor.address then .error .sendPhaseInvariant
  else match actor.views[transfer.ptr.index]? with
    | none => .error .sendPhaseInvariant
    | some view =>
      if transfer.ptr.index = own ∨ view.header.role ≠ role ∨
          transfer.handle.matchesHeader view.header = false then
        .error .sendPhaseInvariant
      else match actor.get role with
        | none => .error .sendPhaseInvariant
        | some index => .ok index

def reserveTransferOut (actor : Actor) (own : Nat) (transfer : EndpointTransfer) (role : UInt8) :
    Run (Except KernelError Unit × Actor) :=
  match actor.outgoingTransferView own transfer role with
  | .error error => .ok (.error error, actor)
  | .ok index => do
    let view ← invariantSome actor.views[index]?
    if view.operations.any (· != .idle) then return (.error .sendPhaseInvariant, actor)
    let (lease, phase) := view.primaryOperation.transition .beginSendPayload
    if lease ≠ .held then .error .invariant
    return (.ok (), actor.setView index (view.setOperation view.primaryLane phase))

def preflightTransferOut (actor : Actor) (own : Nat) (transfer : EndpointTransfer) (role : UInt8) :
    Except KernelError Unit := do
  let index ← actor.outgoingTransferView own transfer role
  match actor.views[index]? with
  | none => .error .sendPhaseInvariant
  | some view =>
    if view.primaryOperation ≠ .sendPayload then .error .sendPhaseInvariant else .ok ()

def prepareReceivedView (actor : Actor) (ordinal : Nat) (payload : List UInt8) :
    Run (Except KernelError (Option PreparedViewIssue)) := do
  let atom ← actor.program.eventAtomAt ordinal
  match atom.payload with
  | .wire _ => return .ok none
  | .endpoint role =>
    if payload ≠ wireEnvelope role (UInt16.ofNat ordinal) then return .error .recvPhaseInvariant
    match actor.get role with
    | none => return .error .recvPhaseInvariant
    | some index =>
      let view ← invariantSome actor.views[index]?
      if view.header.liveGeneration ≠ 0 then return .error .recvPhaseInvariant
      match nextViewGeneration actor.viewGeneration with
      | none => return .error .recvPhaseInvariant
      | some generation => return .ok (some ⟨index, generation⟩)

/-- The checks before a commit: the number of live views behind it. -/
def preflightViewCommit (actor : Actor) (own : Nat) (ownRole : UInt8) (atom : Option EffAtom)
    (commit : Option PreparedViewCommit) : Except KernelError UInt16 :=
  match atom, commit with
  | none, none => .ok actor.liveViews
  | some atom, none =>
    match atom.payload with
    | .wire _ => .ok actor.liveViews
    | .endpoint _ => .error .cursorInvariant
  | some atom, some (.retire transfer) =>
    match atom.payload with
    | .wire _ => .error .cursorInvariant
    | .endpoint role =>
      if atom.sender ≠ ownRole then .error .cursorInvariant
      else match actor.preflightTransferOut own transfer role with
        | .error _ => .error .cursorInvariant
        | .ok () => (checkedPrev actor.liveViews).elim (.error .cursorInvariant) .ok
  | some atom, some (.issue issue) =>
    match atom.payload, actor.views[issue.index]? with
    | .endpoint role, some view =>
      if atom.receiver ≠ ownRole ∨ view.header.role ≠ role ∨ view.header.liveGeneration ≠ 0 ∨
          nextViewGeneration actor.viewGeneration ≠ some issue.generation then
        .error .cursorInvariant
      else (checkedNext actor.liveViews).elim (.error .cursorInvariant) .ok
    | _, _ => .error .cursorInvariant
  | none, some _ => .error .cursorInvariant

/-- Commit what was prepared about a view. A received endpoint comes with its handle. -/
def commitPreparedView (actor : Actor) (own : Nat) (ownRole : UInt8) (atom : Option EffAtom)
    (commit : Option PreparedViewCommit) : Run (Option EndpointTransfer × Actor) :=
  match actor.preflightViewCommit own ownRole atom commit with
  | .error _ => .error .invariant
  | .ok liveViews =>
    match commit with
    | none => .ok (none, actor)
    | some (.retire transfer) => do
      let sent ← invariantSome actor.views[transfer.ptr.index]?
      match actor.outgoingTransferView own transfer sent.header.role with
      | .error _ => .error .invariant
      | .ok index =>
        let view ← invariantSome actor.views[index]?
        let (lease, phase) := view.primaryOperation.transition .finishSendPayload
        if lease ≠ .held then .error .invariant
        let actor := actor.setView index (view.setOperation view.primaryLane phase)
        -- The header is the one behind the pointer, in the record the search has found.
        let sent ← invariantSome actor.views[transfer.ptr.index]?
        let header ← sent.header.retireGeneration
        return (none, { actor.setHeader transfer.ptr.index sent header with liveViews })
    | some (.issue issue) => do
      let view ← invariantSome actor.views[issue.index]?
      let header ← view.header.issueReceived issue.generation
      let handle ← EndpointHandle.new actor.publicGeneration issue.generation
      return (some ⟨⟨actor.address, issue.index⟩, handle⟩,
        { actor.setHeader issue.index view header with
          viewGeneration := issue.generation, liveViews })

/-- Drop an endpoint. A handle that no longer fits its header has nothing to retire. -/
def dropEndpoint (actor : Actor) (entered : Bool) (transfer : EndpointTransfer) :
    Run (Bool × Actor) := do
  if transfer.ptr.actor ≠ actor.address then return (false, actor)
  let view ← invariantSome actor.views[transfer.ptr.index]?
  if transfer.handle.matchesHeader view.header = false then return (false, actor)
  let index ← invariantSome (actor.get view.header.role)
  let view ← invariantSome actor.views[index]?
  let actor ← actor.retireView index view
  if entered then
    -- the kernel of another view is checked before it is found to be entered
    actor.enterKernel index
    return (true, actor)
  else return (true, ← actor.drainRetirements)

end Actor

end Hibana
