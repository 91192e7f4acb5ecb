/-
This file lifts ownership from the source order to every interleaving.

An execution may run the arms of a parallel node in any order that keeps the
order of every sequence. Two present events that the source does not order lie in
different arms of a parallel node, whose transfers and uses are separated, so they
are independent and every event sees the holders that it sees in source order.
Ownership is then followed as a relation: a transfer takes an endpoint away from
the holder of the sender and gives it to the holder of the receiver. Since the
sender is the holder, every endpoint keeps exactly one holder.
-/

import HibanaChoreography.Ownership.ActorImage
import HibanaChoreography.Library.Interleaving
import Mathlib.Data.Set.Basic

namespace Hibana

open Outcome Interleaving List

/-! ### Separate messages -/

/-- The message names the endpoint as sender, receiver or payload. -/
def Message.Uses (message : Message) (key : EndpointKey) : Prop :=
  message.fromKey = key ∨ message.toKey = key ∨ message.payload = .endpoint key

/-- Neither message carries an endpoint that the other one uses. -/
def Message.Separate (first second : Message) : Prop :=
  (∀ key, first.payload = .endpoint key → ¬ second.Uses key) ∧
    ∀ key, second.payload = .endpoint key → ¬ first.Uses key

/-- What a message sees: the holders of its sender, its receiver and its payload. -/
def Message.view (message : Message) (holders : Holders) : UInt8 × UInt8 × Option UInt8 :=
  (holders message.fromKey, holders message.toKey,
    match message.payload with
    | .endpoint key => some (holders key)
    | .wire _ => none)

/-- A transfer does not change what a separate message sees. -/
theorem view_transfer {first second : Message}
    (separate : ∀ key, second.payload = .endpoint key → ¬ first.Uses key) (holders : Holders) :
    first.view (holders.transfer second) = first.view holders := by
  have kept : ∀ key, first.Uses key → holders.transfer second key = holders key :=
    fun key uses => transfer_of_ne holders fun carried => separate key carried uses
  unfold Message.view
  rw [kept _ (.inl rfl), kept _ (.inr (.inl rfl))]
  cases payload : first.payload with
  | wire schema => rfl
  | endpoint key =>
    simp only
    rw [kept key (.inr (.inr payload))]

theorem transfer_comm {first second : Message} (separate : first.Separate second)
    (holders : Holders) :
    (holders.transfer first).transfer second = (holders.transfer second).transfer first := by
  cases firstPayload : first.payload with
  | wire schema => simp only [Holders.transfer, firstPayload]
  | endpoint firstKey =>
    cases secondPayload : second.payload with
    | wire schema => simp only [Holders.transfer, firstPayload, secondPayload]
    | endpoint secondKey =>
      have notSecond := separate.1 firstKey firstPayload
      have notFirst := separate.2 secondKey secondPayload
      have ne : firstKey ≠ secondKey := by
        rintro rfl
        exact notSecond (.inr (.inr secondPayload))
      have toSecond : second.toKey ≠ firstKey := fun same => notSecond (.inr (.inl same))
      have toFirst : first.toKey ≠ secondKey := fun same => notFirst (.inr (.inl same))
      simp only [Holders.transfer, firstPayload, secondPayload]
      rw [Function.update_of_ne toSecond, Function.update_of_ne toFirst, Function.update_comm ne]

theorem Message.Separate.independent {first second : Nat × Message}
    (separate : first.2.Separate second.2) :
    Independent (fun (holders : Holders) (event : Nat × Message) => holders.transfer event.2)
      (fun (event : Nat × Message) holders => event.2.view holders) first second where
  commute := transfer_comm separate
  firstView := view_transfer separate.2
  secondView := view_transfer separate.1

/-! ### Unordered events -/

namespace Source

theorem not_uses_of_separated {left right : Source} {key : EndpointKey}
    (separated : ¬ (left.transfers key = true ∧ right.uses key = true)) {first second : Message}
    (inLeft : first ∈ left.messages) (inRight : second ∈ right.messages)
    (carried : first.payload = .endpoint key) : ¬ second.Uses key := by
  intro uses
  exact separated ⟨(left.transfers_iff key).mpr ⟨first, inLeft, carried⟩,
    (right.uses_iff key).mpr ⟨second, inRight, uses⟩⟩

/-- Two present events that the source does not order are separate. -/
theorem separate_of_not_before {source : Source} (separated : source.ParallelSeparated)
    {start : Nat} {env : Assignment} {first second : Nat × Message}
    (firstPresent : first ∈ source.presentEvents start env)
    (secondPresent : second ∈ source.presentEvents start env) (earlier : first.1 < second.1)
    (unordered : source.before (first.1 - start) (second.1 - start) = false) :
    first.2.Separate second.2 := by
  induction source generalizing start with
  | send message =>
    have firstEqual := mem_singleton.mp firstPresent
    have secondEqual := mem_singleton.mp secondPresent
    rw [firstEqual, secondEqual] at earlier
    omega
  | seq left right hypLeft hypRight =>
    rcases mem_append.mp firstPresent with firstLeft | firstRight
    · have firstBounds := presentEvents_bounds firstLeft
      rcases mem_append.mp secondPresent with secondLeft | secondRight
      · have secondBounds := presentEvents_bounds secondLeft
        rw [before_seq_left (by omega) (by omega)] at unordered
        exact hypLeft separated.1 firstLeft secondLeft unordered
      · have secondBounds := presentEvents_bounds secondRight
        rw [before_seq_across (by omega) (by omega)] at unordered
        cases unordered
    · have firstBounds := presentEvents_bounds firstRight
      rcases mem_append.mp secondPresent with secondLeft | secondRight
      · have secondBounds := presentEvents_bounds secondLeft
        omega
      · rw [before_seq_right (by omega) (by omega), Nat.sub_sub, Nat.sub_sub] at unordered
        exact hypRight separated.2 firstRight secondRight unordered
  | par left right hypLeft hypRight =>
    obtain ⟨apart, leftSeparated, rightSeparated⟩ := separated
    rcases mem_append.mp firstPresent with firstLeft | firstRight
    · have firstBounds := presentEvents_bounds firstLeft
      rcases mem_append.mp secondPresent with secondLeft | secondRight
      · have secondBounds := presentEvents_bounds secondLeft
        rw [before_par_left (by omega) (by omega)] at unordered
        exact hypLeft leftSeparated firstLeft secondLeft unordered
      · have firstMessage := mem_messages_of_mem_presentEvents firstLeft
        have secondMessage := mem_messages_of_mem_presentEvents secondRight
        exact ⟨fun key => not_uses_of_separated (apart key).1 firstMessage secondMessage,
          fun key => not_uses_of_separated (apart key).2 secondMessage firstMessage⟩
    · have firstBounds := presentEvents_bounds firstRight
      rcases mem_append.mp secondPresent with secondLeft | secondRight
      · have secondBounds := presentEvents_bounds secondLeft
        omega
      · rw [before_par_right (by omega) (by omega), Nat.sub_sub, Nat.sub_sub] at unordered
        exact hypRight rightSeparated firstRight secondRight unordered
  | route left right resolver hypLeft hypRight =>
    simp only [presentEvents] at firstPresent secondPresent
    cases chosen : env (routeScope start left right) with
    | left =>
      rw [chosen] at firstPresent secondPresent
      have firstBounds := presentEvents_bounds firstPresent
      have secondBounds := presentEvents_bounds secondPresent
      rw [before_route_left (by omega) (by omega)] at unordered
      exact hypLeft separated.1 firstPresent secondPresent unordered
    | right =>
      rw [chosen] at firstPresent secondPresent
      have firstBounds := presentEvents_bounds firstPresent
      rw [before_route_right (by omega) (by omega), Nat.sub_sub, Nat.sub_sub] at unordered
      exact hypRight separated.2 firstPresent secondPresent unordered
  | roll body hypBody =>
    rw [before_roll] at unordered
    exact hypBody separated firstPresent secondPresent unordered

end Source

/-! ### Interleavings -/

/-- The present events in an order that keeps the source order. -/
structure Source.Interleaving (source : Source) (assignment : Assignment)
    (order : List (Nat × Message)) : Prop where
  permuted : order.Perm (source.presentEvents 0 assignment)
  respects : order.Pairwise fun earlier later => source.before later.1 earlier.1 = false

theorem Source.presentEvents_nodup (source : Source) (start : Nat) (env : Assignment) :
    (source.presentEvents start env).Nodup :=
  (source.presentEvents_sorted start env).imp fun earlier same => by
    rw [same] at earlier
    exact Nat.lt_irrefl _ earlier

variable {source : Source} {env : Assignment} {event : Nat × Message}
  {before after : List (Nat × Message)}

/-- In source order the holders in front of an event are those of the replay up to it. -/
theorem Source.holdersAt_of_split (split : source.presentEvents 0 env = before ++ event :: after)
    (initial : Holders) : source.holdersAt env initial event.1 = replay before initial := by
  have sorted := source.presentEvents_sorted 0 env
  rw [split] at sorted
  obtain ⟨_, tailSorted, across⟩ := pairwise_append.mp sorted
  have later := (pairwise_cons.mp tailSorted).1
  unfold holdersAt
  rw [split, filter_append, filter_eq_self.mpr fun other mem => by
      simpa using across other mem event mem_cons_self,
    filter_eq_nil_iff.mpr fun other mem => by
      rcases mem_cons.mp mem with rfl | inAfter
      · simp
      · simpa using Nat.le_of_lt (later other inAfter),
    append_nil]

/-- In every interleaving an event sees the holders that it sees in source order. -/
theorem Source.Interleaving.seen_eq (separated : source.ParallelSeparated)
    {order : List (Nat × Message)} (interleaving : source.Interleaving env order)
    (initial : Holders) (split : order = before ++ event :: after) :
    event.2.view (replay before initial) = event.2.view (source.holdersAt env initial event.1) := by
  have inOrder : event ∈ order := by
    rw [split]
    exact mem_append_right _ mem_cons_self
  obtain ⟨sourceBefore, sourceAfter, sourceSplit⟩ :=
    append_of_mem (interleaving.permuted.mem_iff.mp inOrder)
  rw [Source.holdersAt_of_split sourceSplit]
  have respects : Respects
      (fun (holders : Holders) (event : Nat × Message) => holders.transfer event.2)
      (fun (event : Nat × Message) holders => event.2.view holders)
      (source.presentEvents 0 env) order := by
    intro first second inSource reversed
    have sorted := (source.presentEvents_sorted 0 env).sublist inSource
    have unordered := interleaving.respects.sublist reversed
    have earlier : first.1 < second.1 := by simpa using sorted
    have notBefore : source.before first.1 second.1 = false := by simpa using unordered
    exact Message.Separate.independent (Source.separate_of_not_before separated
      (inSource.mem (by simp)) (inSource.mem (by simp)) earlier notBefore)
  exact Interleaving.view_eq (source.presentEvents_nodup 0 env) interleaving.permuted
    respects initial sourceSplit split

/-! ### Ownership as a relation -/

/-- The actors that hold each endpoint. -/
abbrev Ownership := EndpointKey → Set UInt8

/-- A transfer takes the endpoint away from the holders of the sender and gives it to the holders
of the receiver. -/
def Ownership.pass (owners : Ownership) (message : Message) : Ownership :=
  match message.payload with
  | .endpoint key =>
    Function.update owners key
      ((owners key \ owners message.fromKey) ∪ owners message.toKey)
  | .wire _ => owners

/-- The owners behind a list of events, when every endpoint starts with its initial owner. -/
def ownersAfter (initial : Holders) (events : List (Nat × Message)) : Ownership :=
  events.foldl (fun owners event => owners.pass event.2) fun key => {initial key}

/-- When the sender holds what it sends, single holders stay single. -/
theorem pass_singletons {holders : Holders} {message : Message}
    (held : ∀ key, message.payload = .endpoint key → holders key = holders message.fromKey) :
    Ownership.pass (fun key => {holders key}) message =
      fun key => {holders.transfer message key} := by
  unfold Ownership.pass Holders.transfer
  cases payload : message.payload with
  | wire schema => rfl
  | endpoint carried =>
    funext key
    simp only
    by_cases same : key = carried
    · subst same
      rw [Function.update_self, Function.update_self, held key payload, Set.sdiff_self,
        Set.empty_union]
    · rw [Function.update_of_ne same, Function.update_of_ne same]

/-- A consistent source has every transfer sent by the holder. -/
theorem Source.Consistent.held {root : Source} {initial : Holders} {start : Nat}
    (consistent : Source.Consistent root env initial source start)
    (isPresent : event ∈ source.presentEvents start env) {key : EndpointKey}
    (carried : event.2.payload = .endpoint key) :
    root.holdersAt env initial event.1 key =
      root.holdersAt env initial event.1 event.2.fromKey := by
  induction source generalizing start with
  | send message =>
    rw [mem_singleton.mp isPresent] at carried ⊢
    exact consistent key carried
  | seq left right hypLeft hypRight | par left right hypLeft hypRight =>
    rcases mem_append.mp isPresent with inLeft | inRight
    · exact hypLeft consistent.1 inLeft
    · exact hypRight consistent.2 inRight
  | route left right resolver hypLeft hypRight =>
    simp only [Source.Consistent] at consistent
    simp only [Source.presentEvents] at isPresent
    cases chosen : env (routeScope start left right) with
    | left =>
      rw [chosen] at consistent isPresent
      exact hypLeft consistent isPresent
    | right =>
      rw [chosen] at consistent isPresent
      exact hypRight consistent isPresent
  | roll body hypBody => exact hypBody consistent.1 isPresent

section Owners

variable {source : Source} {initial : Holders} {env : Assignment}
  {order : List (Nat × Message)}

/-- In every interleaving the sender of a transfer holds what it sends. -/
theorem Source.Interleaving.held (conforms : source.Conforms initial)
    (interleaving : source.Interleaving env order) (split : order = before ++ event :: after)
    {key : EndpointKey} (carried : event.2.payload = .endpoint key) :
    replay before initial key = replay before initial event.2.fromKey := by
  have seen := interleaving.seen_eq conforms.2.1 initial split
  simp only [Message.view, carried, Prod.mk.injEq, Option.some.injEq] at seen
  have isPresent : event ∈ source.presentEvents 0 env := by
    refine interleaving.permuted.mem_iff.mp ?_
    rw [split]
    exact mem_append_right _ mem_cons_self
  rw [seen.1, seen.2.2]
  exact (conforms.2.2.consistent env).held isPresent carried

/-- At every point of an interleaving the owners are the holders of replay. -/
theorem Source.Interleaving.owners_eq (conforms : source.Conforms initial)
    (interleaving : source.Interleaving env order) (before : List (Nat × Message))
    {after : List (Nat × Message)} (split : order = before ++ after) :
    ownersAfter initial before = fun key => {replay before initial key} := by
  induction before using List.reverseRecOn generalizing after with
  | nil => rfl
  | append_singleton before event hyp =>
    have shifted : order = before ++ event :: after := by
      rw [split, append_assoc]
      rfl
    have held : ∀ key, event.2.payload = .endpoint key →
        replay before initial key = replay before initial event.2.fromKey :=
      fun key carried => interleaving.held conforms shifted carried
    unfold ownersAfter at hyp ⊢
    rw [foldl_append, hyp shifted, foldl_cons, foldl_nil, pass_singletons held]
    funext key
    rw [replay_append, replay_cons, replay_nil]

end Owners

/-- Replaying the present events of an accepted source in any order that keeps the source order
gives every event the actors of the image, the sender of a transfer holds what it sends, and every
endpoint has exactly one holder at every point. -/
theorem interleaving_actorsAt (symbolCapacity eventCapacity decisionCapacity : Nat)
    (source : Source) (scratch : Scratch) (image : ActorImage)
    (isOk : compileActorImageInto symbolCapacity eventCapacity decisionCapacity source =
      .ok (scratch, image)) :
    ∃ initial, source.SolvesOwnership initial ∧
      ∀ assignment selections, source.Complete selections assignment →
        ∀ order, source.Interleaving assignment order →
          (∀ before event after, order = before ++ event :: after → ∃ sender receiver,
              image.actorsAt event.1 selections = .ok (some (sender, receiver)) ∧
              ownersAfter initial before event.2.fromKey = {sender} ∧
              ownersAfter initial before event.2.toKey = {receiver} ∧
              ∀ key, event.2.payload = .endpoint key → ownersAfter initial before key = {sender}) ∧
          ∀ before after, order = before ++ after → ∀ key,
            ∃! holder, holder ∈ ownersAfter initial before key := by
  have compiled := compiled_of_ok isOk
  obtain ⟨initial, isModel, _⟩ :=
    (Scratch.rooted_iff_existsUnique compiled.accepted.valid).mp compiled.accepted.rooted
  have conforms := (compiled.accepted.models initial).mp isModel
  refine ⟨initial, conforms.2.2, fun assignment selections complete order interleaving => ⟨?_, ?_⟩⟩
  · intro before event after split
    have isPresent : event ∈ source.presentEvents 0 assignment := by
      refine interleaving.permuted.mem_iff.mp ?_
      rw [split]
      exact mem_append_right _ mem_cons_self
    have seen := interleaving.seen_eq conforms.2.1 initial split
    simp only [Message.view, Prod.mk.injEq] at seen
    refine ⟨_, _, compiled.actorsAt_eq conforms complete isPresent, ?_⟩
    simp only [interleaving.owners_eq conforms before split]
    refine ⟨by rw [seen.1], by rw [seen.2.1], fun key carried => ?_⟩
    rw [interleaving.held conforms split carried, seen.1]
  · intro before after split key
    rw [interleaving.owners_eq conforms before split]
    exact ⟨_, rfl, fun other isOther => isOther⟩

/-- Two endpoints change hands in parallel. -/
def parallelHandover : Source :=
  .par (.send ⟨⟨0, 0⟩, ⟨0, 1⟩, 0, .endpoint ⟨0, 5⟩⟩)
    (.send ⟨⟨0, 2⟩, ⟨0, 3⟩, 1, .endpoint ⟨0, 6⟩⟩)

def parallelScratch : Scratch where
  symbols := [⟨⟨0, 0⟩, .control⟩, ⟨⟨0, 1⟩, .control⟩, ⟨⟨0, 5⟩, .delegated⟩, ⟨⟨0, 2⟩, .control⟩,
    ⟨⟨0, 3⟩, .control⟩, ⟨⟨0, 6⟩, .delegated⟩]
  initial := [⟨0, 0, none⟩, ⟨1, 0, none⟩, ⟨2, 0, some 0⟩, ⟨3, 0, none⟩, ⟨4, 0, none⟩,
    ⟨5, 0, some 2⟩]
  events := parallelHandover.messages

def parallelImage : ActorImage where
  events := [⟨0, 1⟩, ⟨2, 3⟩]
  choices := []
  eventLen := 2

theorem parallelHandover_compiled :
    compileActorImageInto 6 2 0 parallelHandover = .ok (parallelScratch, parallelImage) := by
  decide +kernel

/-- The second arm may run first. -/
theorem parallelHandover_reversed :
    ∃ initial, parallelHandover.SolvesOwnership initial ∧ ownersAfter initial [] ⟨0, 2⟩ = {2} ∧
      ownersAfter initial [(1, ⟨⟨0, 2⟩, ⟨0, 3⟩, 1, .endpoint ⟨0, 6⟩⟩)] ⟨0, 5⟩ = {0} := by
  obtain ⟨initial, solves, run⟩ := interleaving_actorsAt 6 2 0 parallelHandover parallelScratch
    parallelImage parallelHandover_compiled
  have complete : parallelHandover.Complete [] fun _ => .left := by
    rintro scope ⟨⟩
  have interleaving : parallelHandover.Interleaving (fun _ => .left)
      [(1, ⟨⟨0, 2⟩, ⟨0, 3⟩, 1, .endpoint ⟨0, 6⟩⟩), (0, ⟨⟨0, 0⟩, ⟨0, 1⟩, 0, .endpoint ⟨0, 5⟩⟩)] :=
    ⟨List.Perm.swap _ _ _, by decide⟩
  obtain ⟨actors, _⟩ := run (fun _ => .left) [] complete _ interleaving
  refine ⟨initial, solves, ?_, ?_⟩
  · obtain ⟨sender, receiver, isPair, fromSender, _⟩ := actors [] _ _ rfl
    have computed : parallelImage.actorsAt 1 [] = .ok (some (2, 3)) := by decide +kernel
    rw [computed] at isPair
    cases Except.ok.inj isPair
    exact fromSender
  · obtain ⟨sender, receiver, isPair, _, _, held⟩ := actors [_] _ _ rfl
    have computed : parallelImage.actorsAt 0 [] = .ok (some (0, 1)) := by decide +kernel
    rw [computed] at isPair
    cases Except.ok.inj isPair
    exact held ⟨0, 5⟩ rfl

end Hibana
