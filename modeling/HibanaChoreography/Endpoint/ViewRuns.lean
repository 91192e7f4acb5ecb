/-
This file is about histories of the views of one actor: views are entered, endpoints are
received, sent away and dropped, in any order that the owners of the endpoints allow.

An endpoint that is being sent belongs to its send, and a send borrows the view it is sent
from. A receive that was prepared holds the kernel until it is published or abandoned;
other endpoints may be dropped meanwhile. Over every history the live views are counted,
their generations differ, and a handle that was retired fits no view again.
-/

import HibanaChoreography.Endpoint.ViewSteps
import HibanaChoreography.Library.Machine

namespace Hibana

open Outcome Machines List

/-! ### The machine -/

/-- A receive of an endpoint between its preparation and its commit. -/
structure Receiving where
  own : Nat
  ordinal : Nat
  issue : PreparedViewIssue
  deriving DecidableEq

/-- A send that has borrowed its payload. -/
structure Sending where
  own : Nat
  ordinal : Nat
  transfer : EndpointTransfer
  deriving DecidableEq

structure Custody where
  actor : Actor
  receiving : Option Receiving
  sending : List Sending
  deriving DecidableEq

inductive ViewOp where
  | enter (role : UInt8)
  | prepare (own ordinal : Nat) (payload : List UInt8)
  | publish
  | abandon
  | reserve (own ordinal : Nat) (transfer : EndpointTransfer)
  | commit (position : Nat)
  | cancel (position : Nat)
  | drop (transfer : EndpointTransfer)
  | operate (index lane : Nat) (phase : PublicActiveOp)

inductive ViewReply where
  | entered (issued : Bool)
  | prepared (result : Except KernelError (Option PreparedViewIssue))
  | received (owner : Option EndpointTransfer)
  | reserved (result : Except KernelError Unit)
  | retired (handle : EndpointHandle)
  | done

namespace Custody

/-- The custody of an actor that was just initialized. -/
def new (actor : Actor) : Custody := ⟨actor, none, []⟩

/-- An endpoint that its owner uses: its view is live, and no send has it as its payload. -/
def Uses (custody : Custody) (own : Nat) : Prop :=
  (∃ view, custody.actor.views[own]? = some view ∧ view.header.isIssued = true) ∧
    ∀ send ∈ custody.sending, send.transfer.ptr.index ≠ own

/-- An event that a view sends or receives. -/
def HasEvent (custody : Custody) (own ordinal : Nat) (peer : EffAtom → UInt8) : Prop :=
  ∃ view atom, custody.actor.views[own]? = some view ∧
    custody.actor.program.events[ordinal]? = some atom ∧ peer atom = view.header.role

/-- An endpoint value that its owner may give away. It is in no send, and while it is live neither
a send nor a receive borrows it. -/
def Owns (custody : Custody) (transfer : EndpointTransfer) : Prop :=
  transfer.ptr.actor = custody.actor.address → ∃ view,
    custody.actor.views[transfer.ptr.index]? = some view ∧
    (∀ send ∈ custody.sending, send.transfer ≠ transfer) ∧
    (transfer.handle.matchesHeader view.header = true →
      (∀ send ∈ custody.sending, send.own ≠ transfer.ptr.index) ∧
      ∀ receive, custody.receiving = some receive → receive.own ≠ transfer.ptr.index)

/-- What the owners of endpoints may ask for. A kernel that holds a prepared receive is entered by
no other operation. -/
def Admits (custody : Custody) : ViewOp → Prop
  | .enter _ => True
  | .prepare own ordinal _ => custody.receiving = none ∧ custody.Uses own ∧
      custody.HasEvent own ordinal (·.receiver)
  | .publish | .abandon => custody.receiving ≠ none
  | .reserve own ordinal transfer => custody.receiving = none ∧ custody.Uses own ∧
      custody.HasEvent own ordinal (·.sender) ∧ custody.Owns transfer
  | .commit position => custody.receiving = none ∧ position < custody.sending.length
  | .cancel position => position < custody.sending.length
  | .drop transfer => custody.Owns transfer
  | .operate index _ phase => custody.receiving = none ∧ phase ≠ .sendPayload ∧
      ∀ send ∈ custody.sending, send.transfer.ptr.index ≠ index

/-- The reply to a drop: its handle, if it retired a view. -/
def dropped (transfer : EndpointTransfer) (isRetired : Bool) : ViewReply :=
  if isRetired then .retired transfer.handle else .done

def perform (custody : Custody) : ViewOp → Run (ViewReply × Custody)
  | .enter role => do
    let (issued, actor) ← custody.actor.issueInitialView custody.receiving.isSome role
    return (.entered issued, { custody with actor })
  | .prepare own ordinal payload => do
    custody.actor.enterKernel own
    match ← custody.actor.prepareReceivedView ordinal payload with
    | .ok (some issue) =>
      return (.prepared (.ok (some issue)),
        { custody with receiving := some ⟨own, ordinal, issue⟩ })
    | result => return (.prepared result, { custody with actor := ← custody.actor.leaveKernel })
  | .publish => do
    let receive ← invariantSome custody.receiving
    let actor ← custody.actor.reconcileRetirements receive.own
    let own ← invariantSome actor.views[receive.own]?
    let atom ← actor.program.eventAtomAt receive.ordinal
    let (owner, actor) ← actor.commitPreparedView receive.own own.header.role (some atom)
      (some (.issue receive.issue))
    return (.received owner, { custody with actor := ← actor.leaveKernel, receiving := none })
  | .abandon => do
    let receive ← invariantSome custody.receiving
    let actor ← custody.actor.reconcileRetirements receive.own
    return (.done, { custody with actor := ← actor.leaveKernel, receiving := none })
  | .reserve own ordinal transfer => do
    custody.actor.enterKernel own
    let atom ← custody.actor.program.eventAtomAt ordinal
    match atom.payload with
    | .wire _ =>
      return (.reserved (.error .sendPhaseInvariant),
        { custody with actor := ← custody.actor.leaveKernel })
    | .endpoint role =>
      let (result, actor) ← custody.actor.reserveTransferOut own transfer role
      let actor ← actor.leaveKernel
      match result with
      | .ok () => return (.reserved result,
          { custody with actor, sending := custody.sending ++ [⟨own, ordinal, transfer⟩] })
      | .error _ => return (.reserved result, { custody with actor })
  | .commit position => do
    let send ← invariantSome custody.sending[position]?
    custody.actor.enterKernel send.own
    let actor ← custody.actor.reconcileRetirements send.own
    let own ← invariantSome actor.views[send.own]?
    let atom ← actor.program.eventAtomAt send.ordinal
    let (_, actor) ← actor.commitPreparedView send.own own.header.role (some atom)
      (some (.retire send.transfer))
    return (.retired send.transfer.handle,
      { custody with actor := ← actor.leaveKernel, sending := custody.sending.eraseIdx position })
  | .cancel position => do
    let send ← invariantSome custody.sending[position]?
    let (isRetired, actor) ← custody.actor.dropEndpoint custody.receiving.isSome send.transfer
    return (dropped send.transfer isRetired,
      { custody with actor, sending := custody.sending.eraseIdx position })
  | .drop transfer => do
    let (isRetired, actor) ← custody.actor.dropEndpoint custody.receiving.isSome transfer
    return (dropped transfer isRetired, { custody with actor })
  | .operate index lane phase =>
    match custody.actor.views[index]? with
    | none => return (.done, custody)
    | some view => return (.done,
        { custody with actor := custody.actor.setView index (view.setOperation lane phase) })

def machine : Machine Custody ViewOp ViewReply :=
  ⟨Admits, perform⟩

end Custody

/-! ### What the requests keep -/

variable {send : Sending}

namespace Actor

variable {actor next : Actor} {touched : Nat → Prop} {index : Nat} {view : ResidentView}

/-- A header that a step keeps: its record is not touched, or no header is. -/
theorem Touches.header (touches : actor.Touches touched next)
    (kept : ¬touched index ∨ next.ledger.headers = actor.ledger.headers)
    (found : actor.views[index]? = some view) :
    ∃ other, next.views[index]? = some other ∧ other.header = view.header := by
  rcases kept with apart | headers
  · exact ⟨view, (touches.views index apart).trans found, rfl⟩
  · apply view_of_ledger
    rw [headers]
    exact ledger_header found

/-- A send whose payload is borrowed, with the view it is sent from and its event. -/
structure Lends (actor : Actor) (send : Sending) (lender view : ResidentView) (atom : EffAtom) :
    Prop where
  isLender : actor.views[send.own]? = some lender
  isLive : lender.header.isIssued = true
  event : actor.program.events[send.ordinal]? = some atom
  sender : atom.sender = lender.header.role
  payload : atom.payload = .endpoint view.header.role
  sendable : actor.Sendable send.own send.transfer view.header.role view
  borrowed : view.primaryOperation = .sendPayload

def Pending (actor : Actor) (send : Sending) : Prop :=
  ∃ lender view atom, actor.Lends send lender view atom

theorem Pending.touch (pending : actor.Pending send) (touches : actor.Touches touched next)
    (own : ¬touched send.own ∨ next.ledger.headers = actor.ledger.headers)
    (payload : ¬touched send.transfer.ptr.index) : next.Pending send := by
  obtain ⟨lender, view, atom, lends⟩ := pending
  obtain ⟨other, found, header⟩ := touches.header own lends.isLender
  exact ⟨other, view, atom, {
    isLender := found
    isLive := by rw [header]; exact lends.isLive
    event := by rw [touches.program]; exact lends.event
    sender := by rw [header]; exact lends.sender
    payload := lends.payload
    sendable :=
      { lends.sendable with
        address := by rw [touches.address]; exact lends.sendable.address
        found := (touches.views _ payload).trans lends.sendable.found }
    borrowed := lends.borrowed }⟩

theorem Pending.isLive (pending : actor.Pending send) :
    (∃ lender, actor.views[send.own]? = some lender ∧ lender.header.isIssued = true) ∧
      ∃ view, actor.views[send.transfer.ptr.index]? = some view ∧ view.header.isIssued = true := by
  obtain ⟨lender, view, atom, lends⟩ := pending
  exact ⟨⟨lender, lends.isLender, lends.isLive⟩, view, lends.sendable.found,
    lends.sendable.isIssued⟩

/-- A receive that may be committed, with its view, the view it issues and its event. -/
structure Expects (actor : Actor) (receive : Receiving) (own view : ResidentView)
    (atom : EffAtom) : Prop where
  isOwn : actor.views[receive.own]? = some own
  isLive : own.header.isIssued = true
  event : actor.program.events[receive.ordinal]? = some atom
  receiver : atom.receiver = own.header.role
  payload : atom.payload = .endpoint view.header.role
  found : actor.views[receive.issue.index]? = some view
  dormant : view.header.isIssued = false
  isNext : nextViewGeneration actor.viewGeneration = some receive.issue.generation

def Promised (actor : Actor) (receive : Receiving) : Prop :=
  ∃ own view atom, actor.Expects receive own view atom

theorem Promised.touch {receive : Receiving} (promised : actor.Promised receive)
    (touches : actor.Touches touched next) (counter : next.viewGeneration = actor.viewGeneration)
    (own : ¬touched receive.own ∨ next.ledger.headers = actor.ledger.headers)
    (issue : ¬touched receive.issue.index ∨ next.ledger.headers = actor.ledger.headers) :
    next.Promised receive := by
  obtain ⟨ownView, view, atom, expects⟩ := promised
  obtain ⟨other, found, header⟩ := touches.header own expects.isOwn
  obtain ⟨issued, issuedFound, issuedHeader⟩ := touches.header issue expects.found
  exact ⟨other, issued, atom, {
    isOwn := found
    isLive := by rw [header]; exact expects.isLive
    event := by rw [touches.program]; exact expects.event
    receiver := by rw [header]; exact expects.receiver
    payload := by rw [issuedHeader]; exact expects.payload
    found := issuedFound
    dormant := by rw [issuedHeader]; exact expects.dormant
    isNext := by rw [counter]; exact expects.isNext }⟩

end Actor

namespace Custody

/-- What holds between the requests: the ledger is in order, the sends have borrowed their payloads,
and a prepared receive may be committed. -/
structure Sound (custody : Custody) : Prop where
  inOrder : custody.actor.InOrder
  pending : ∀ send ∈ custody.sending, custody.actor.Pending send
  apart : custody.sending.Pairwise fun first second =>
    first.transfer.ptr.index ≠ second.transfer.ptr.index
  lent : ∀ first ∈ custody.sending, ∀ second ∈ custody.sending,
    first.own ≠ second.transfer.ptr.index
  promised : ∀ receive, custody.receiving = some receive → custody.actor.Promised receive ∧
    ∀ send ∈ custody.sending, send.transfer.ptr.index ≠ receive.own

/-- A request is answered, and what was spent stays spent. -/
def Answers (custody : Custody) (reply : ViewReply) (next : Custody) : Prop :=
  next.Sound ∧ custody.actor.ledger.Follows next.actor.ledger ∧
    ∀ handle, reply = .retired handle → next.actor.ledger.Spent handle

/-- A request returns, with such an answer. -/
def Performs (custody : Custody) (op : ViewOp) : Prop :=
  ∃ reply next, custody.perform op = .ok (reply, next) ∧ custody.Answers reply next

namespace Sound

variable {custody : Custody} {next : Actor} {index : Nat} {view : ResidentView}

/-- Fewer sends. -/
theorem sublist (sound : custody.Sound) {sending : List Sending}
    (fewer : sending.Sublist custody.sending) : ({ custody with sending } : Custody).Sound where
  inOrder := sound.inOrder
  pending send mem := sound.pending send (fewer.subset mem)
  apart := sound.apart.sublist fewer
  lent first isFirst second isSecond :=
    sound.lent first (fewer.subset isFirst) second (fewer.subset isSecond)
  promised receive isReceive :=
    ⟨(sound.promised receive isReceive).1,
      fun send mem => (sound.promised receive isReceive).2 send (fewer.subset mem)⟩

theorem abandon (sound : custody.Sound) : ({ custody with receiving := none } : Custody).Sound :=
  { sound with promised := nofun }

/-- The end of the I/O of retired views touches no live view. -/
theorem settle (sound : custody.Sound) (settles : custody.actor.Settles next) :
    ({ custody with actor := next } : Custody).Sound := by
  have headers : next.ledger.headers = custody.actor.ledger.headers := by rw [settles.ledger]
  have counter : next.viewGeneration = custody.actor.viewGeneration :=
    congrArg Ledger.counter settles.ledger
  refine { sound with inOrder := ?_, pending := ?_, promised := ?_ }
  · show next.ledger.InOrder next.publicGeneration
    rw [settles.ledger, settles.touches.generation]
    exact sound.inOrder.settle
  · intro send mem
    have pending := sound.pending send mem
    obtain ⟨-, view, found, isIssued⟩ := pending.isLive
    exact pending.touch settles.touches (.inr headers)
      (sound.inOrder.not_waiting (Actor.ledger_header found) isIssued)
  · intro receive isReceive
    obtain ⟨promised, apart⟩ := sound.promised receive isReceive
    exact ⟨promised.touch settles.touches counter (.inr headers) (.inr headers), apart⟩

/-- An operation of a view that is no payload. -/
theorem rephase (sound : custody.Sound) (found : custody.actor.views[index]? = some view)
    {other : ResidentView} (sameHeader : other.header = view.header)
    (free : ∀ send ∈ custody.sending, send.transfer.ptr.index ≠ index) :
    ({ custody with actor := custody.actor.setView index other } : Custody).Sound := by
  have ledger := Actor.ledger_setView found sameHeader
  have headers := congrArg Ledger.headers ledger
  have touches := custody.actor.setView_touches index other
  refine { sound with inOrder := ?_, pending := ?_, promised := ?_ }
  · show (custody.actor.setView index other).ledger.InOrder _
    rw [ledger]
    exact sound.inOrder
  · exact fun send mem =>
      (sound.pending send mem).touch touches (.inr headers) (free send mem)
  · intro receive isReceive
    obtain ⟨promised, apart⟩ := sound.promised receive isReceive
    exact ⟨promised.touch touches rfl (.inr headers) (.inr headers), apart⟩

/-- A dormant view is issued when no receive is prepared. -/
theorem issue (sound : custody.Sound) (quiet : custody.receiving = none)
    (found : custody.actor.views[index]? = some view) (dormant : view.header.isIssued = false)
    (notWaiting : index ∉ custody.actor.retiredViews) {generation : UInt32}
    (isNext : nextViewGeneration custody.actor.viewGeneration = some generation) :
    ({ custody with actor := custody.actor.issued index view generation } : Custody).Sound := by
  have touches := custody.actor.issued_touches index view generation
  -- Neither the lender of a send nor its payload is dormant.
  have differs : ∀ other live, custody.actor.views[other]? = some live →
      live.header.isIssued = true → other ≠ index := by
    rintro other live isLive isIssued rfl
    rw [found, Option.some.injEq] at isLive
    rw [← isLive, dormant] at isIssued
    cases isIssued
  refine { sound with inOrder := ?_, pending := ?_, promised := ?_ }
  · show (custody.actor.issued index view generation).ledger.InOrder _
    rw [Actor.ledger_issued]
    exact sound.inOrder.issue (Actor.ledger_header found) dormant notWaiting isNext
  · intro send mem
    have pending := sound.pending send mem
    obtain ⟨⟨lender, isLender, lenderLive⟩, payload, isPayload, payloadLive⟩ := pending.isLive
    exact pending.touch touches (.inl (differs _ lender isLender lenderLive))
      (differs _ payload isPayload payloadLive)
  · intro receive isReceive
    rw [show ({ custody with actor := _ } : Custody).receiving = custody.receiving from rfl,
      quiet] at isReceive
    cases isReceive

/-- A live view that nobody borrows is retired. -/
theorem retire (sound : custody.Sound) (found : custody.actor.views[index]? = some view)
    (isIssued : view.header.isIssued = true)
    (free : ∀ send ∈ custody.sending, send.own ≠ index ∧ send.transfer.ptr.index ≠ index)
    (notOwn : ∀ receive, custody.receiving = some receive → receive.own ≠ index) :
    ({ custody with actor := custody.actor.retired index view } : Custody).Sound := by
  have touches := custody.actor.retired_touches index view
  refine { sound with inOrder := ?_, pending := ?_, promised := ?_ }
  · show (custody.actor.retired index view).ledger.InOrder _
    rw [Actor.ledger_retired]
    exact sound.inOrder.retire (Actor.ledger_header found) isIssued
  · exact fun send mem => (sound.pending send mem).touch touches
      (.inl (free send mem).1) (free send mem).2
  · intro receive isReceive
    obtain ⟨promised, apart⟩ := sound.promised receive isReceive
    obtain ⟨own, promise, atom, expects⟩ := promised
    have differs : receive.issue.index ≠ index := by
      intro same
      have isPromise := expects.found
      rw [same, found, Option.some.injEq] at isPromise
      rw [isPromise, expects.dormant] at isIssued
      cases isIssued
    exact ⟨Actor.Promised.touch ⟨own, promise, atom, expects⟩ touches rfl
      (.inl (notOwn receive isReceive)) (.inl differs), apart⟩

/-- A retired view waits for the end of its I/O. -/
theorem wait (sound : custody.Sound) (found : custody.actor.views[index]? = some view)
    (dormant : view.header.isIssued = false) (wasIssued : view.header.viewGeneration ≠ 0)
    (notWaiting : index ∉ custody.actor.retiredViews) :
    ({ custody with actor := { custody.actor with
      retiredViews := index :: custody.actor.retiredViews } } : Custody).Sound := by
  have touches : custody.actor.Touches (fun _ => False)
      { custody.actor with retiredViews := index :: custody.actor.retiredViews } :=
    ⟨rfl, rfl, rfl, fun _ _ => rfl⟩
  refine { sound with inOrder := ?_, pending := ?_, promised := ?_ }
  · exact sound.inOrder.wait (Actor.ledger_header found) dormant wasIssued notWaiting
  · exact fun send mem => (sound.pending send mem).touch touches (.inr rfl) id
  · intro receive isReceive
    obtain ⟨promised, apart⟩ := sound.promised receive isReceive
    exact ⟨promised.touch touches rfl (.inr rfl) (.inr rfl), apart⟩

/-- Behind the end of the I/O of retired views, what was spent stays spent. -/
theorem follows_settle {actor : Actor} (settles : actor.Settles next) :
    actor.ledger.Follows next.ledger := by
  apply Ledger.Follows.of_eq <;> rw [settles.ledger]

/-- A live view is retired and waits, behind which the kernel may end its I/O. -/
theorem drop (sound : custody.Sound) {transfer : EndpointTransfer}
    (address : transfer.ptr.actor = custody.actor.address)
    (found : custody.actor.views[transfer.ptr.index]? = some view)
    (free : transfer.handle.matchesHeader view.header = true → ∀ send ∈ custody.sending,
      send.own ≠ transfer.ptr.index ∧ send.transfer.ptr.index ≠ transfer.ptr.index)
    (notOwn : transfer.handle.matchesHeader view.header = true → ∀ receive,
      custody.receiving = some receive → receive.own ≠ transfer.ptr.index) :
    ∃ next, custody.actor.dropEndpoint custody.receiving.isSome transfer =
        .ok (transfer.handle.matchesHeader view.header, next) ∧
      Answers custody (dropped transfer (transfer.handle.matchesHeader view.header))
        { custody with actor := next } := by
  rw [sound.inOrder.dropEndpoint _ address found]
  cases fits : transfer.handle.matchesHeader view.header with
  | false =>
    exact ⟨custody.actor, rfl, sound, .refl _, nofun⟩
  | true =>
    have header := Actor.ledger_header found
    have isIssued := (EndpointHandle.matchesHeader_iff.mp fits).1
    have notWaiting := sound.inOrder.not_waiting header isIssued
    have retired := sound.retire found isIssued (free fits) (notOwn fits)
    have follows := sound.inOrder.follows_retire header isIssued
    have spent := sound.inOrder.spent_retire header fits
    have dormant := sound.inOrder.not_isIssued_succ header isIssued
    have inBounds := (List.getElem?_eq_some_iff.mp found).1
    have foundRetired : (custody.actor.retired transfer.ptr.index view).views[transfer.ptr.index]? =
        some { view with header :=
          { view.header with viewGeneration := view.header.viewGeneration + 1 } } := by
      exact getElem?_set_self inBounds
    have wasIssued : view.header.viewGeneration + 1 ≠ 0 := by
      intro isZero
      have sum := sound.inOrder.toNat_succ header isIssued
      rw [isZero] at sum
      exact absurd sum.symm (Nat.succ_ne_zero _)
    have waits := retired.wait foundRetired dormant wasIssued notWaiting
    rw [← Actor.ledger_retired] at follows spent
    have spentOf : ∀ handle, dropped transfer true = .retired handle →
        (custody.actor.retired transfer.ptr.index view).ledger.Spent handle := by
      rintro handle ⟨⟩
      exact spent
    cases custody.receiving.isSome with
    | true =>
      have enters := waits.inOrder.enterKernel foundRetired
      exact ⟨_, (Run.bind_eq_ok_iff _ _ _).mpr ⟨(), enters, rfl⟩, waits, follows, spentOf⟩
    | false =>
      obtain ⟨drained, isOk, settles⟩ := waits.inOrder.drainRetirements
      have settled := follows_settle settles
      refine ⟨drained, ?_, waits.settle settles, follows.trans settled, ?_⟩
      · exact congrArg (· >>= fun drained => .ok (true, drained)) isOk
      · exact fun handle isReply => settled handle (spentOf handle isReply)

theorem performEnter (sound : custody.Sound) (role : UInt8) : custody.Performs (.enter role) := by
  rw [Performs, perform]
  rcases sound.inOrder.issueInitialView custody.receiving.isSome role with
    unchanged | ⟨quiet, index, view, generation, found, wasZero, isNext, isOk⟩
  · rw [unchanged]
    exact ⟨_, _, rfl, sound, .refl _, by simp⟩
  · have none : custody.receiving = none := Option.not_isSome_iff_eq_none.mp (by simp [quiet])
    have dormant : view.header.isIssued = false := by
      rw [KernelEndpointHeader.isIssued, wasZero]
      rfl
    have notWaiting : index ∉ custody.actor.retiredViews := by
      intro waits
      obtain ⟨header, isHeader, -, nonzero⟩ := sound.inOrder.dormant index waits
      rw [Actor.ledger_header found, Option.some.injEq] at isHeader
      exact nonzero (isHeader ▸ wasZero)
    rw [isOk]
    refine ⟨_, _, rfl, sound.issue none found dormant notWaiting isNext, ?_, by simp⟩
    rw [Actor.ledger_issued]
    exact Ledger.InOrder.follows_issue isNext

/-- Leave the kernel of a live view. -/
theorem leave (sound : custody.Sound) (found : custody.actor.views[index]? = some view)
    (isIssued : view.header.isIssued = true) :
    ∃ next, custody.actor.leaveKernel = .ok next ∧
      ({ custody with actor := next } : Custody).Sound ∧
      custody.actor.ledger.Follows next.ledger := by
  obtain ⟨next, isOk, settles⟩ := sound.inOrder.leaveKernel found isIssued
  exact ⟨next, isOk, sound.settle settles, follows_settle settles⟩

variable {own ordinal : Nat}

theorem performPrepare (sound : custody.Sound) {payload : List UInt8}
    (admitted : custody.Admits (.prepare own ordinal payload)) :
    custody.Performs (.prepare own ordinal payload) := by
  obtain ⟨-, ⟨⟨live, isLive, isIssued⟩, notPayload⟩, view, atom, found, event, receiver⟩ := admitted
  rw [found, Option.some.injEq] at isLive
  subst isLive
  obtain ⟨result, isResult, promises⟩ := sound.inOrder.prepareReceivedView event payload
  obtain ⟨next, isLeave, nextSound, follows⟩ := sound.leave found isIssued
  rw [Performs, perform, sound.inOrder.enterKernel found, Run.bind_ok, isResult, Run.bind_ok]
  match result with
  | .ok (some issue) =>
    obtain ⟨issued, isFound, carried, dormant, isNext⟩ := promises issue rfl
    refine ⟨_, _, rfl, { sound with promised := ?_ }, .refl _, nofun⟩
    rintro receive ⟨⟩
    exact ⟨⟨view, issued, atom, ⟨found, isIssued, event, receiver, carried, isFound, dormant,
      isNext⟩⟩, notPayload⟩
  | .ok none =>
    simp only [isLeave]
    exact ⟨_, _, rfl, nextSound, follows, nofun⟩
  | .error error =>
    simp only [isLeave]
    exact ⟨_, _, rfl, nextSound, follows, nofun⟩

theorem performAbandon (sound : custody.Sound) (admitted : custody.Admits .abandon) :
    custody.Performs .abandon := by
  obtain ⟨receive, isReceive⟩ := Option.ne_none_iff_exists'.mp admitted
  obtain ⟨⟨own, view, atom, expects⟩, -⟩ := sound.promised receive isReceive
  obtain ⟨settled, isSettled, settles⟩ :=
    sound.inOrder.reconcileRetirements expects.isOwn expects.isLive
  have afterSettle := sound.settle settles
  obtain ⟨other, found, header⟩ := settles.touches.header (.inr (by rw [settles.ledger]))
    expects.isOwn
  obtain ⟨next, isLeave, nextSound, follows⟩ := afterSettle.leave found (header ▸ expects.isLive)
  rw [Performs, perform, isReceive, invariantSome_some, Run.bind_ok, isSettled, Run.bind_ok]
  simp only [isLeave]
  exact ⟨_, _, rfl, nextSound.abandon, (follows_settle settles).trans follows, nofun⟩

theorem performPublish (sound : custody.Sound) (admitted : custody.Admits .publish) :
    custody.Performs .publish := by
  obtain ⟨receive, isReceive⟩ := Option.ne_none_iff_exists'.mp admitted
  obtain ⟨promised, -⟩ := sound.promised receive isReceive
  obtain ⟨own, view, atom, expects⟩ := promised
  obtain ⟨settled, isSettled, settles⟩ :=
    sound.inOrder.reconcileRetirements expects.isOwn expects.isLive
  have afterSettle := sound.settle settles
  -- Behind the pass the receive may still be committed, and no view waits.
  obtain ⟨⟨own, view, atom, expects⟩, -⟩ := afterSettle.promised receive isReceive
  have nobody : settled.retiredViews = [] := congrArg Ledger.waiting settles.ledger
  have notWaiting : receive.issue.index ∉ settled.retiredViews := by
    rw [nobody]
    exact not_mem_nil
  have quiet := afterSettle.abandon
  have committed := quiet.issue rfl expects.found expects.dormant notWaiting expects.isNext
  obtain ⟨handle, isCommit⟩ := afterSettle.inOrder.commitPreparedView_issue receive.own
    expects.found expects.payload expects.dormant expects.isNext
  have apart : receive.own ≠ receive.issue.index := by
    intro same
    have isOwn := expects.isOwn
    rw [same, expects.found, Option.some.injEq] at isOwn
    have isLive := expects.isLive
    rw [← isOwn, expects.dormant] at isLive
    cases isLive
  have foundOwn := (settled.issued_touches receive.issue.index view
    receive.issue.generation).views receive.own apart
  obtain ⟨next, isLeave, nextSound, follows⟩ :=
    committed.leave (foundOwn.trans expects.isOwn) expects.isLive
  have followsIssue : settled.ledger.Follows
      (settled.issued receive.issue.index view receive.issue.generation).ledger := by
    rw [Actor.ledger_issued]
    exact Ledger.InOrder.follows_issue expects.isNext
  rw [Performs, perform, isReceive, invariantSome_some, Run.bind_ok, isSettled, Run.bind_ok]
  rw [show settled.views[receive.own]? = some own from expects.isOwn, invariantSome_some,
    Run.bind_ok, ActorProgram.eventAtomAt,
    show settled.program.events[receive.ordinal]? = some atom from expects.event]
  rw [← expects.receiver]
  simp only [isCommit, Run.bind_ok, isLeave]
  exact ⟨_, _, rfl, nextSound, ((follows_settle settles).trans followsIssue).trans follows, by simp⟩

/-- One more send, whose payload no other send has and no send is made from. -/
theorem lend (sound : custody.Sound) (pending : custody.actor.Pending send)
    (quiet : custody.receiving = none)
    (free : ∀ other ∈ custody.sending, other.own ≠ send.transfer.ptr.index ∧
      other.transfer.ptr.index ≠ send.transfer.ptr.index)
    (notPayload : ∀ other ∈ custody.sending, other.transfer.ptr.index ≠ send.own)
    (apart : send.transfer.ptr.index ≠ send.own) :
    ({ custody with sending := custody.sending ++ [send] } : Custody).Sound where
  inOrder := sound.inOrder
  pending other mem := by
    rcases mem_append.mp mem with old | isNew
    · exact sound.pending other old
    · rw [mem_singleton.mp isNew]
      exact pending
  apart := by
    refine pairwise_append.mpr ⟨sound.apart, pairwise_singleton _ _, ?_⟩
    intro old mem other isNew
    rw [mem_singleton.mp isNew]
    exact (free old mem).2
  lent first isFirst second isSecond := by
    rcases mem_append.mp isFirst with firstOld | firstNew
    · rcases mem_append.mp isSecond with secondOld | secondNew
      · exact sound.lent first firstOld second secondOld
      · rw [mem_singleton.mp secondNew]
        exact (free first firstOld).1
    · rw [mem_singleton.mp firstNew]
      rcases mem_append.mp isSecond with secondOld | secondNew
      · exact (notPayload second secondOld).symm
      · rw [mem_singleton.mp secondNew]
        exact apart.symm
  promised receive isReceive := by
    rw [show ({ custody with sending := _ } : Custody).receiving = custody.receiving from rfl,
      quiet] at isReceive
    cases isReceive

variable {transfer : EndpointTransfer}

section

variable (sound : custody.Sound)

include sound

/-- An endpoint that its owner gives away is no payload and lends nothing. -/
theorem free_of_owns (owns : custody.Owns transfer)
    (address : transfer.ptr.actor = custody.actor.address)
    (found : custody.actor.views[transfer.ptr.index]? = some view)
    (fits : transfer.handle.matchesHeader view.header = true) :
    ∀ send ∈ custody.sending,
      send.own ≠ transfer.ptr.index ∧ send.transfer.ptr.index ≠ transfer.ptr.index := by
  obtain ⟨other, isOther, notSent, free⟩ := owns address
  rw [found, Option.some.injEq] at isOther
  subst isOther
  intro send mem
  refine ⟨(free fits).1 send mem, ?_⟩
  intro same
  obtain ⟨lender, payload, atom, lends⟩ := sound.pending send mem
  have isPayload := lends.sendable.found
  rw [same, found, Option.some.injEq] at isPayload
  have sameHandle := EndpointHandle.eq_of_matchesHeader (isPayload ▸ lends.sendable.fits) fits
  have samePtr : send.transfer.ptr = transfer.ptr := by
    rw [HeaderPtr.mk.injEq]
    exact ⟨lends.sendable.address.trans address.symm, same⟩
  exact notSent send mem (by rw [EndpointTransfer.mk.injEq]; exact ⟨samePtr, sameHandle⟩)

theorem performReserve (admitted : custody.Admits (.reserve own ordinal transfer)) :
    custody.Performs (.reserve own ordinal transfer) := by
  obtain ⟨quiet, ⟨⟨live, isLive, isIssued⟩, notPayload⟩, ⟨view, atom, found, event, sender⟩,
    owns⟩ := admitted
  rw [found, Option.some.injEq] at isLive
  subst isLive
  rw [Performs, perform, sound.inOrder.enterKernel found, Run.bind_ok,
    ActorProgram.eventAtomAt, event]
  simp only [Run.bind_ok]
  cases carried : atom.payload with
  | wire schema =>
    obtain ⟨next, isLeave, nextSound, follows⟩ := sound.leave found isIssued
    simp only [isLeave]
    exact ⟨_, _, rfl, nextSound, follows, by simp⟩
  | endpoint role =>
    rcases sound.inOrder.reserveTransferOut own transfer role with
      ⟨error, unchanged⟩ | ⟨payload, sendable, isReserved⟩
    · obtain ⟨next, isLeave, nextSound, follows⟩ := sound.leave found isIssued
      simp only [unchanged, Run.bind_ok, isLeave]
      exact ⟨_, _, rfl, nextSound, follows, by simp⟩
    · have free := sound.free_of_owns owns sendable.address sendable.found sendable.fits
      have sameHeader := payload.header_setOperation payload.primaryLane .sendPayload
      have rephased := sound.rephase sendable.found sameHeader fun send mem =>
        (free send mem).2
      have touches := custody.actor.setView_touches transfer.ptr.index
        (payload.setOperation payload.primaryLane .sendPayload)
      have foundOwn := (touches.views own sendable.apart.symm).trans found
      have pending : (custody.actor.setView transfer.ptr.index
          (payload.setOperation payload.primaryLane .sendPayload)).Pending
            ⟨own, ordinal, transfer⟩ :=
        ⟨view, _, atom, {
          isLender := foundOwn
          isLive := isIssued
          event := event
          sender := sender
          payload := by rw [carried, ← sendable.role]; rfl
          sendable := {
            address := sendable.address
            found := getElem?_set_self (List.getElem?_eq_some_iff.mp sendable.found).1
            apart := sendable.apart
            role := rfl
            fits := sendable.fits }
          borrowed := payload.primaryOperation_setOperation .sendPayload }⟩
      have lends := rephased.lend pending quiet free notPayload sendable.apart
      obtain ⟨next, isLeave, nextSound, follows⟩ := lends.leave foundOwn isIssued
      simp only [isReserved, Run.bind_ok]
      rw [isLeave]
      refine ⟨_, _, rfl, nextSound, Ledger.Follows.trans ?_ follows, by simp⟩
      rw [Actor.ledger_setView sendable.found sameHeader]
      exact .refl _

variable {position : Nat}

/-- The other sends, when one has ended. -/
theorem free_of_eraseIdx (isSend : custody.sending[position]? = some send) :
    ∀ other ∈ custody.sending.eraseIdx position, other.own ≠ send.transfer.ptr.index ∧
      other.transfer.ptr.index ≠ send.transfer.ptr.index := by
  intro other mem
  obtain ⟨inBounds, isGet⟩ := List.getElem?_eq_some_iff.mp isSend
  refine ⟨sound.lent other (mem_of_mem_eraseIdx mem) send (mem_of_getElem? isSend), ?_⟩
  rw [eraseIdx_eq_take_drop_succ, mem_append] at mem
  have split : custody.sending.take position ++ send :: custody.sending.drop (position + 1) =
      custody.sending := by
    rw [← isGet, cons_getElem_drop_succ, take_append_drop]
  have apart := sound.apart
  rw [← split, pairwise_append, pairwise_cons] at apart
  rcases mem with before | after
  · exact apart.2.2 other before send mem_cons_self
  · exact (apart.2.1.1 other after).symm

theorem performCancel (admitted : custody.Admits (.cancel position)) :
    custody.Performs (.cancel position) := by
  have isSend : custody.sending[position]? = some custody.sending[position] :=
    getElem?_eq_getElem admitted
  obtain ⟨lender, view, atom, lends⟩ := sound.pending _ (mem_of_getElem? isSend)
  have fewer := sound.sublist (eraseIdx_sublist custody.sending position)
  obtain ⟨next, isOk, answers⟩ := fewer.drop lends.sendable.address lends.sendable.found
    (fun _ => sound.free_of_eraseIdx isSend)
    (fun _ receive isReceive => ((sound.promised receive isReceive).2 _
      (mem_of_getElem? isSend)).symm)
  rw [Performs, perform, isSend, invariantSome_some, Run.bind_ok]
  simp only [isOk]
  exact ⟨_, _, rfl, answers⟩

theorem performDrop (admitted : custody.Admits (.drop transfer)) :
    custody.Performs (.drop transfer) := by
  rw [Performs, perform]
  by_cases address : transfer.ptr.actor = custody.actor.address
  · obtain ⟨view, found, -, free⟩ := admitted address
    obtain ⟨next, isOk, answers⟩ := sound.drop address found
      (sound.free_of_owns admitted address found) (fun fits => (free fits).2)
    simp only [isOk]
    exact ⟨_, _, rfl, answers⟩
  · rw [Actor.dropEndpoint, if_pos address]
    exact ⟨_, _, rfl, sound, .refl _, by simp [dropped]⟩

/-- A drop of a live endpoint retires its view: the handle fits no view behind it. -/
theorem drop_retires (admitted : custody.Admits (.drop transfer))
    (address : transfer.ptr.actor = custody.actor.address)
    (found : custody.actor.views[transfer.ptr.index]? = some view)
    (fits : transfer.handle.matchesHeader view.header = true) :
    ∃ next, custody.perform (.drop transfer) = .ok (.retired transfer.handle, next) ∧
      ∀ view ∈ next.actor.views, transfer.handle.matchesHeader view.header = false := by
  obtain ⟨other, isOther, -, free⟩ := admitted address
  obtain rfl := Option.some.inj (found.symm.trans isOther)
  obtain ⟨next, isOk, _, _, spent⟩ := sound.drop address found
    (sound.free_of_owns admitted address found) (fun fits => (free fits).2)
  rw [fits] at isOk spent
  rw [perform, isOk]
  exact ⟨_, rfl, fun view mem => (spent _ rfl).2 _ (mem_map_of_mem mem)⟩

theorem performCommit (admitted : custody.Admits (.commit position)) :
    custody.Performs (.commit position) := by
  obtain ⟨quiet, inBounds⟩ := admitted
  have isSend : custody.sending[position]? = some custody.sending[position] :=
    getElem?_eq_getElem inBounds
  generalize custody.sending[position] = send at isSend
  have mem := mem_of_getElem? isSend
  obtain ⟨lender, view, atom, lends⟩ := sound.pending send mem
  obtain ⟨settled, isSettled, settles⟩ :=
    sound.inOrder.reconcileRetirements lends.isLender lends.isLive
  have entered := sound.inOrder.enterKernel lends.isLender
  have afterSettle := sound.settle settles
  -- Behind the pass the payload is still borrowed.
  obtain ⟨lender, view, atom, lends⟩ := afterSettle.pending send mem
  have fewer := afterSettle.sublist (eraseIdx_sublist custody.sending position)
  have free := sound.free_of_eraseIdx isSend
  have isCommit := afterSettle.inOrder.commitPreparedView_retire lends.sendable lends.payload
    lends.borrowed
  have idle := view.header_setOperation view.primaryLane .idle
  have rephased := fewer.rephase lends.sendable.found idle fun other isOther =>
    (free other isOther).2
  have sameLedger : (settled.setView send.transfer.ptr.index
      (view.setOperation view.primaryLane .idle)).ledger = settled.ledger :=
    Actor.ledger_setView lends.sendable.found idle
  have found : (settled.setView send.transfer.ptr.index
      (view.setOperation view.primaryLane .idle)).views[send.transfer.ptr.index]? =
        some (view.setOperation view.primaryLane .idle) :=
    getElem?_set_self (List.getElem?_eq_some_iff.mp lends.sendable.found).1
  have retired := rephased.retire found lends.sendable.isIssued free
    (fun receive isReceive => by
      rw [show ({ custody with actor := _, sending := _ } : Custody).receiving =
        custody.receiving from rfl, quiet] at isReceive
      cases isReceive)
  have touches := (settled.setView_touches send.transfer.ptr.index
    (view.setOperation view.primaryLane .idle)).trans (Actor.retired_touches _ _
      (view.setOperation view.primaryLane .idle))
  have foundOwn := (touches.views send.own lends.sendable.apart.symm).trans lends.isLender
  obtain ⟨next, isLeave, nextSound, follows⟩ := retired.leave foundOwn lends.isLive
  have header := Actor.ledger_header found
  have followsRetire := rephased.inOrder.follows_retire header
    lends.sendable.isIssued
  have spent := rephased.inOrder.spent_retire header lends.sendable.fits
  rw [← Actor.ledger_retired] at followsRetire spent
  rw [Performs, perform, isSend, invariantSome_some, Run.bind_ok, entered, Run.bind_ok, isSettled,
    Run.bind_ok, show settled.views[send.own]? = some lender from lends.isLender,
    invariantSome_some, Run.bind_ok, ActorProgram.eventAtomAt,
    show settled.program.events[send.ordinal]? = some atom from lends.event]
  rw [← lends.sender]
  simp only [isCommit, Run.bind_ok, isLeave]
  refine ⟨_, _, rfl, nextSound, ?_, ?_⟩
  · have settledFollows := follows_settle settles
    rw [← sameLedger] at settledFollows
    exact (settledFollows.trans followsRetire).trans follows
  · rintro handle ⟨⟩
    exact follows _ spent

theorem performOperate {lane : Nat} {phase : PublicActiveOp}
    (admitted : custody.Admits (.operate index lane phase)) :
    custody.Performs (.operate index lane phase) := by
  obtain ⟨-, -, free⟩ := admitted
  rw [Performs, perform]
  cases found : custody.actor.views[index]? with
  | none => exact ⟨_, _, rfl, sound, .refl _, nofun⟩
  | some view =>
    have sameHeader := view.header_setOperation lane phase
    refine ⟨_, _, rfl, sound.rephase found sameHeader free, ?_, nofun⟩
    rw [Actor.ledger_setView found sameHeader]
    exact .refl _

/-- Every admitted request is answered. -/
theorem performs {op : ViewOp} (admitted : custody.Admits op) : custody.Performs op := by
  cases op with
  | enter role => exact sound.performEnter role
  | prepare own ordinal payload => exact sound.performPrepare admitted
  | publish => exact sound.performPublish admitted
  | abandon => exact sound.performAbandon admitted
  | reserve own ordinal transfer => exact sound.performReserve admitted
  | commit position => exact sound.performCommit admitted
  | cancel position => exact sound.performCancel admitted
  | drop transfer => exact sound.performDrop admitted
  | operate index lane phase => exact sound.performOperate admitted

end

end Sound

end Custody

/-! ### From the first entry on -/

namespace Actor

/-- The header of a new view: the one that is entered first is issued. -/
def initHeader (publicGeneration : UInt32) (initialRole role : UInt8) : KernelEndpointHeader :=
  ⟨publicGeneration, if role = initialRole then 1 else 0, role⟩

theorem initView_header {publicGeneration : UInt32} {initialRole : UInt8} {primaryLane : Nat}
    {layout : UInt8 × Nat} {view : ResidentView}
    (isView : initView publicGeneration initialRole primaryLane layout = .ok view) :
    view.header = initHeader publicGeneration initialRole layout.1 := by
  by_cases isInitial : layout.1 = initialRole
  · simp only [initView, isInitial, if_pos] at isView
    split at isView
    · have isHeader := congrArg ResidentView.header (Except.ok.inj isView)
      have entered : initHeader publicGeneration initialRole layout.1 =
          ⟨publicGeneration, 1, initialRole⟩ := by
        rw [initHeader, if_pos isInitial, isInitial]
      exact isHeader.symm.trans entered.symm
    · cases isView
  · simp only [initView, isInitial, if_false] at isView
    split at isView
    · have isHeader := congrArg ResidentView.header (Except.ok.inj isView)
      have dormant : initHeader publicGeneration initialRole layout.1 =
          ⟨publicGeneration, 0, layout.1⟩ := by
        rw [initHeader, if_neg isInitial]
      exact isHeader.symm.trans dormant.symm
    · cases isView

theorem initHeader_isIssued (publicGeneration : UInt32) (initialRole role : UInt8) :
    (initHeader publicGeneration initialRole role).isIssued = decide (role = initialRole) := by
  rw [initHeader, KernelEndpointHeader.isIssued]
  by_cases isInitial : role = initialRole
  · simp [isInitial]
  · simp [isInitial]

variable {address primaryLane : Nat} {role initialRole : UInt8} {program : ActorProgram}
  {publicGeneration : UInt32} {layout : List (UInt8 × Nat)} {actor : Actor}

theorem headers_new (isNew : Actor.new address role program publicGeneration initialRole primaryLane
      layout = .ok actor) :
    ∃ views, actor = ⟨address, role, program, publicGeneration, 1, 1, views, []⟩ ∧
      views.map (·.header) =
        (layout.map Prod.fst).map (initHeader publicGeneration initialRole) := by
  obtain ⟨views, isViews, isActor⟩ := Run.of_bind isNew
  refine ⟨views, (Except.ok.inj isActor).symm, ?_⟩
  clear isActor isNew
  induction layout generalizing views with
  | nil =>
    cases isViews
    rfl
  | cons head rest hyp =>
    rw [mapM_cons] at isViews
    obtain ⟨view, isView, isRest⟩ := Run.of_bind isViews
    obtain ⟨others, isOthers, isCons⟩ := Run.of_bind isRest
    cases isCons
    rw [map_cons, map_cons, map_cons, initView_header isView, hyp others isOthers]

/-- The roles of an actor are entered one by one: at first, one of them is live. -/
theorem new_inOrder (isNew : Actor.new address role program publicGeneration initialRole
      primaryLane layout = .ok actor)
    (isPublic : publicGeneration ≠ 0) (sorted : (layout.map Prod.fst).Pairwise (· < ·))
    (entered : initialRole ∈ layout.map Prod.fst) : actor.InOrder := by
  obtain ⟨views, rfl, headers⟩ := headers_new isNew
  have nodup : (layout.map Prod.fst).Nodup := sorted.imp fun less => UInt8.ne_of_lt less
  have isHeader : ∀ header ∈ views.map (·.header), ∃ role ∈ layout.map Prod.fst,
      initHeader publicGeneration initialRole role = header := by
    rw [headers]
    exact fun header mem => mem_map.mp mem
  have roles : (views.map (·.header)).map (·.role) = layout.map Prod.fst := by
    rw [headers, map_map]
    exact map_id _
  exact {
    isPublic := isPublic
    generations := by
      intro header mem
      obtain ⟨role, -, rfl⟩ := isHeader header mem
      rfl
    roles := by
      show ((views.map _).map _).Nodup
      rw [roles]
      exact nodup
    odd := rfl
    below := Nat.lt_of_sub_eq_succ rfl
    counted := by
      show 1 = (views.map (·.header)).countP _
      rw [headers, countP_map]
      have isInitial : ((·.isIssued) ∘ initHeader publicGeneration initialRole) =
          (· == initialRole) := by
        funext role
        exact initHeader_isIssued publicGeneration initialRole role
      rw [isInitial]
      exact (count_eq_one_of_mem nodup entered).symm
    bounded := by
      intro header mem
      obtain ⟨role, -, rfl⟩ := isHeader header mem
      show (if role = initialRole then (1 : UInt32) else 0).toNat ≤ 2
      split <;> decide
    distinct := by
      intro i j first second isFirst isSecond firstIssued secondIssued _
      have role : ∀ (index : Nat) (header : KernelEndpointHeader),
          (views.map (·.header))[index]? = some header → header.isIssued = true →
          (layout.map Prod.fst)[index]? = some initialRole := by
        intro index header isAt isIssued
        rw [headers, getElem?_map, Option.map_eq_some_iff] at isAt
        obtain ⟨role, isRole, rfl⟩ := isAt
        rw [initHeader_isIssued, decide_eq_true_iff] at isIssued
        rw [isRole, isIssued]
      have firstAt := role i first isFirst firstIssued
      have secondAt := role j second isSecond secondIssued
      have inBounds := (List.getElem?_eq_some_iff.mp firstAt).1
      exact (getElem?_inj inBounds nodup).mp (firstAt.trans secondAt.symm)
    dormant := nofun
    once := nodup_nil }

end Actor

namespace Custody

theorem new_sound {actor : Actor} (inOrder : actor.InOrder) : (Custody.new actor).Sound where
  inOrder := inOrder
  pending _ mem := absurd mem not_mem_nil
  apart := List.Pairwise.nil
  lent _ mem := absurd mem not_mem_nil
  promised _ isReceive := by cases isReceive

/-- The handles that the replies of a history say are retired. -/
def retire (reply : ViewReply) (handles : List EndpointHandle) : List EndpointHandle :=
  match reply with
  | .retired handle => handle :: handles
  | _ => handles

def retiredHandles (visits : List (Visit Custody ViewOp ViewReply)) : List EndpointHandle :=
  effects (fun _ => retire) [] visits

/-- A sound state in which some handles are spent. -/
def Settled (custody : Custody) (handles : List EndpointHandle) : Prop :=
  custody.Sound ∧ ∀ handle ∈ handles, custody.actor.ledger.Spent handle

/-- Every state of a history is sound, and what was retired is spent. -/
theorem settled_of_history {start custody : Custody} (sound : start.Sound)
    {visits : List (Visit Custody ViewOp ViewReply)}
    (history : History machine start visits custody) : custody.Settled (retiredHandles visits) := by
  have atStart : start.Settled [] := ⟨sound, nofun⟩
  refine history.refines atStart ?_
  rintro state handles op reply next ⟨stateSound, spent⟩ admitted isOk
  obtain ⟨answer, after, isAnswer, nextSound, follows, retired⟩ := stateSound.performs admitted
  cases isOk.symm.trans isAnswer
  refine ⟨nextSound, ?_⟩
  have old : ∀ handle ∈ handles, next.actor.ledger.Spent handle := fun handle mem =>
    follows handle (spent handle mem)
  cases reply with
  | retired handle =>
    intro other mem
    rcases mem_cons.mp mem with rfl | earlier
    · exact retired _ rfl
    · exact old other earlier
  | _ => exact old

/-- Over every history of an actor, the live views are counted, their generations differ and are
not ahead of the counter, a retired handle fits no view, and every admitted request is answered; a
drop of a handle that fits its view retires the view. -/
theorem views_are_counted {address primaryLane : Nat} {role initialRole : UInt8}
    {program : ActorProgram} {publicGeneration : UInt32} {layout : List (UInt8 × Nat)}
    {actor : Actor} (isNew : Actor.new address role program publicGeneration initialRole
      primaryLane layout = .ok actor)
    (isPublic : publicGeneration ≠ 0) (sorted : (layout.map Prod.fst).Pairwise (· < ·))
    (entered : initialRole ∈ layout.map Prod.fst) {custody : Custody}
    {visits : List (Visit Custody ViewOp ViewReply)}
    (history : History machine (Custody.new actor) visits custody) :
    custody.actor.liveViews.toNat = custody.actor.views.countP (·.header.isIssued) ∧
    (∀ (i j : Nat) (first second : ResidentView), custody.actor.views[i]? = some first →
      custody.actor.views[j]? = some second → first.header.isIssued = true →
      second.header.isIssued = true →
      first.header.viewGeneration = second.header.viewGeneration → i = j) ∧
    (∀ view ∈ custody.actor.views, view.header.isIssued = true →
      view.header.viewGeneration ≤ custody.actor.viewGeneration) ∧
    (∀ handle ∈ retiredHandles visits, ∀ view ∈ custody.actor.views,
      handle.matchesHeader view.header = false) ∧
    (∀ op, custody.Admits op → ∃ reply next, custody.perform op = .ok (reply, next)) ∧
    ∀ transfer view, custody.Admits (.drop transfer) → transfer.ptr.actor = custody.actor.address →
      custody.actor.views[transfer.ptr.index]? = some view →
      transfer.handle.matchesHeader view.header = true →
      ∃ next, custody.perform (.drop transfer) = .ok (.retired transfer.handle, next) ∧
        ∀ view ∈ next.actor.views, transfer.handle.matchesHeader view.header = false := by
  obtain ⟨sound, spent⟩ := settled_of_history
    (new_sound (Actor.new_inOrder isNew isPublic sorted entered)) history
  have mem : ∀ view ∈ custody.actor.views, view.header ∈ custody.actor.ledger.headers :=
    fun view isMember => mem_map_of_mem isMember
  refine ⟨?_, ?_, ?_, ?_, ?_, fun _ _ => sound.drop_retires⟩
  · have counted := sound.inOrder.counted
    rw [show custody.actor.ledger.headers = custody.actor.views.map (·.header) from rfl,
      countP_map] at counted
    exact counted
  · intro i j first second isFirst isSecond firstIssued secondIssued same
    exact sound.inOrder.distinct i j _ _ (Actor.ledger_header isFirst)
      (Actor.ledger_header isSecond) firstIssued secondIssued same
  · intro view isMember isIssued
    exact UInt32.le_iff_toNat_le.mpr (sound.inOrder.issued_le (mem view isMember) isIssued)
  · intro handle isRetired view isMember
    exact (spent handle isRetired).2 _ (mem view isMember)
  · intro op admitted
    obtain ⟨reply, next, isOk, -⟩ := sound.performs admitted
    exact ⟨reply, next, isOk⟩

/-- An actor of roles 0 and 10, with a counter, a number of live views, and a generation and a
phase of role 10. -/
def twoViews (counter : UInt32) (live : UInt16) (generation : UInt32) (phase : PublicActiveOp) :
    Actor :=
  ⟨4096, 0, ⟨[⟨0, 1, 7, .endpoint 10, 0⟩, ⟨1, 0, 8, .endpoint 10, 0⟩], [(10, 0)]⟩, 1, counter, live,
    [⟨⟨1, 1, 0⟩, [.idle], 0, by decide⟩, ⟨⟨1, generation, 10⟩, [phase], 0, Nat.zero_lt_one⟩], []⟩

/-- An actor enters as 0 and as 10, sends 10 away and receives it back; then a send of 10 is
cancelled and 0 is dropped. Three handles are retired. -/
theorem views_are_counted_returned :
    ∃ actor visits custody, Actor.new 4096 0
        ⟨[⟨0, 1, 7, .endpoint 10, 0⟩, ⟨1, 0, 8, .endpoint 10, 0⟩], [(10, 0)]⟩ 1 0 0
        [(0, 1), (10, 1)] = .ok actor ∧
      History machine (Custody.new actor) visits custody ∧
      (retiredHandles visits).map (·.viewGeneration) = [1, 5, 3] ∧ custody.actor.liveViews = 0 ∧
      ∀ handle ∈ retiredHandles visits, ∀ view ∈ custody.actor.views,
        handle.matchesHeader view.header = false := by
  have isNew : Actor.new 4096 0 (twoViews 1 1 0 .idle).program 1 0 0 [(0, 1), (10, 1)] =
    .ok (twoViews 1 1 0 .idle) := rfl
  have begun : History machine (Custody.new (twoViews 1 1 0 .idle)) [] _ := .start
  have first : History machine _ _ ⟨twoViews 3 2 3 .idle, none, []⟩ :=
    begun.step (.enter 10) trivial rfl
  have second : History machine _ _
      ⟨twoViews 3 2 3 .sendPayload, none, [⟨0, 0, ⟨⟨4096, 1⟩, ⟨1, 3, by decide, by decide⟩⟩⟩]⟩ :=
    first.step (.reserve 0 0 ⟨⟨4096, 1⟩, ⟨1, 3, by decide, by decide⟩⟩) ⟨rfl, ⟨⟨_, rfl, rfl⟩,
      by simp⟩, ⟨_, _, rfl, rfl, rfl⟩, fun _ => ⟨_, rfl, by simp, by simp⟩⟩ rfl
  have third : History machine _ _ ⟨twoViews 3 1 4 .idle, none, []⟩ :=
    second.step (.commit 0) ⟨rfl, Nat.zero_lt_one⟩ rfl
  have fourth : History machine _ _ ⟨twoViews 3 1 4 .idle, some ⟨0, 1, ⟨1, 5⟩⟩, []⟩ :=
    third.step (.prepare 0 1 [10, 0, 1]) ⟨rfl, ⟨⟨_, rfl, rfl⟩, by simp⟩, ⟨_, _, rfl, rfl, rfl⟩⟩ rfl
  have fifth : History machine _ _ ⟨twoViews 5 2 5 .idle, none, []⟩ :=
    fourth.step .publish (by simp [machine, Admits]) rfl
  have sixth : History machine _ _
      ⟨twoViews 5 2 5 .sendPayload, none, [⟨0, 0, ⟨⟨4096, 1⟩, ⟨1, 5, by decide, by decide⟩⟩⟩]⟩ :=
    fifth.step (.reserve 0 0 ⟨⟨4096, 1⟩, ⟨1, 5, by decide, by decide⟩⟩) ⟨rfl, ⟨⟨_, rfl, rfl⟩,
      by simp⟩, ⟨_, _, rfl, rfl, rfl⟩, fun _ => ⟨_, rfl, by simp, by simp⟩⟩ rfl
  have seventh := sixth.step (.cancel 0) Nat.zero_lt_one rfl
  have eighth := seventh.step (.drop ⟨⟨4096, 0⟩, ⟨1, 1, by decide, by decide⟩⟩)
    (fun _ => ⟨_, rfl, by simp, by simp⟩) rfl
  exact ⟨_, _, _, isNew, eighth, rfl, rfl,
    (views_are_counted isNew (by decide) (by decide) (by decide) eighth).2.2.2.1⟩

end Custody

end Hibana
