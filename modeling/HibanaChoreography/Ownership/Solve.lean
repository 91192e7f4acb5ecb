/-
This file proves what the equation solver of ownership validation does.

The models of a scratch state are the assignments of initial owners that its
forest allows. Joining two classes, or giving a class an actor, keeps exactly the
models that satisfy the new equation, and the solver answers `false` only when no
model does. Splitting an equation on an open route covers every route assignment
that agrees with the control path, so `equate` adds exactly the statement that two
endpoints have one holder on all of them.
-/

import HibanaChoreography.Ownership.Validate
import HibanaChoreography.Ownership.QuerySoundness
import HibanaChoreography.Library.Constraint

namespace Hibana

open Outcome Constraint

namespace Scratch

variable {source : Source}

/-- The index names a delegated endpoint. -/
def DelegatedAt (symbols : List Symbol) (index : Nat) : Prop :=
  ∃ symbol, symbols[index]? = some symbol ∧ symbol.kind = .delegated

/-- The invariant of the scratch between two equations: queries can be asked, no endpoint is
collected twice, and only delegated endpoints have been joined or given an actor. -/
structure Valid (source : Source) (scratch : Scratch) : Prop where
  wellFormed : (scratch.query source).WellFormed
  distinct : (scratch.symbols.map Symbol.key).Nodup
  joined : ∀ index owner, scratch.initial[index]? = some owner → owner.parent ≠ index →
    DelegatedAt scratch.symbols index ∧ DelegatedAt scratch.symbols owner.parent
  bound : ∀ index owner, scratch.initial[index]? = some owner → owner.actor ≠ none →
    DelegatedAt scratch.symbols index

/-- The assignments of initial owners that a scratch state allows. -/
def Models (source : Source) (scratch : Scratch) (holders : Holders) : Prop :=
  (scratch.query source).Solves holders

/-- What an equation leaves alone. -/
def Keeps (source : Source) (before after : Scratch) : Prop :=
  after.Valid source ∧ after.symbols = before.symbols ∧ after.events = before.events

variable {scratch : Scratch} {holders : Holders} {index : Nat}

/-- An actor that a class has been given owns it in every model. -/
theorem Models.holderAt_eq (isModel : scratch.Models source holders) {owner : InitialOwner}
    {actor : UInt8} (present : scratch.initial[index]? = some owner) (isRoot : owner.parent = index)
    (known : owner.actor = some actor) : holderAt scratch.symbols holders index = some actor :=
  (isModel.satisfies index owner present).2 isRoot actor known

/-- A change of the forest refines the models as it refines what the forest allows. -/
theorem models_congr (scratch : Scratch) (changed : List InitialOwner) (condition : Holders → Prop)
    (refined : ∀ holders, Satisfies scratch.symbols changed holders ↔
      Satisfies scratch.symbols scratch.initial holders ∧ condition holders) (holders : Holders) :
    Models source { scratch with initial := changed } holders ↔
      scratch.Models source holders ∧ condition holders := by
  constructor
  · rintro ⟨satisfies, static⟩
    obtain ⟨before, holds⟩ := (refined holders).mp satisfies
    exact ⟨⟨before, static⟩, holds⟩
  · rintro ⟨⟨satisfies, static⟩, holds⟩
    exact ⟨(refined holders).mpr ⟨satisfies, holds⟩, static⟩

/-- Well-formedness of the queries is a matter of the forest only, once the symbols are fixed. -/
theorem Valid.wellFormed_of (valid : scratch.Valid source) {changed : List InitialOwner}
    (size : changed.length = scratch.initial.length)
    (ranked : Forest.Ranked (parentOf changed) (rankOf changed) changed.length) :
    (query { scratch with initial := changed } source).WellFormed where
  size := size.trans valid.wellFormed.size
  ranked := ranked
  carried := valid.wellFormed.carried

/-! ### Giving a class an actor -/

variable {symbols : List Symbol}

section BindActor

variable {scratch : Scratch} {root : Nat} {owner : InitialOwner} {initial : List InitialOwner}

theorem getElem_set_self (present : initial[index]? = some owner) (changed : InitialOwner) :
    (initial.set index changed)[index]? = some changed := by
  obtain ⟨inside, _⟩ := List.getElem?_eq_some_iff.mp present
  simp [inside]

/-- Setting an actor changes neither parents nor ranks. -/
theorem ranked_set_actor (ranked : Forest.Ranked (parentOf initial) (rankOf initial) initial.length)
    (present : initial[root]? = some owner) (actor : Option UInt8) :
    Forest.Ranked (parentOf (initial.set root { owner with actor := actor }))
      (rankOf (initial.set root { owner with actor := actor }))
      (initial.set root { owner with actor := actor }).length := by
  have parents : parentOf (initial.set root { owner with actor := actor }) = parentOf initial := by
    funext index
    unfold parentOf
    by_cases same : root = index
    · subst same
      rw [getElem_set_self present, present]
      rfl
    · rw [List.getElem?_set_ne same]
  have ranks : rankOf (initial.set root { owner with actor := actor }) = rankOf initial := by
    funext index
    unfold rankOf
    by_cases same : root = index
    · subst same
      rw [getElem_set_self present, present]
      rfl
    · rw [List.getElem?_set_ne same]
  rw [parents, ranks, List.length_set]
  exact ranked

theorem satisfies_set_actor (present : initial[root]? = some owner) (isRoot : owner.parent = root)
    (unknown : owner.actor = none) (actor : UInt8) (holders : Holders) :
    Satisfies symbols (initial.set root { owner with actor := some actor }) holders ↔
      Satisfies symbols initial holders ∧ holderAt symbols holders root = some actor := by
  constructor
  · intro satisfies
    have atRoot := satisfies root { owner with actor := some actor } (getElem_set_self present _)
    refine ⟨?_, atRoot.2 isRoot actor rfl⟩
    intro index other isOther
    by_cases same : root = index
    · subst same
      rw [present] at isOther
      cases isOther
      exact ⟨atRoot.1, by rw [unknown]; rintro _ _ ⟨⟩⟩
    · exact satisfies index other (by rw [List.getElem?_set_ne same]; exact isOther)
  · rintro ⟨satisfies, holds⟩ index other isOther
    by_cases same : root = index
    · subst same
      rw [getElem_set_self present] at isOther
      cases isOther
      refine ⟨(satisfies root owner present).1, ?_⟩
      rintro _ _ ⟨⟩
      exact holds
    · rw [List.getElem?_set_ne same] at isOther
      exact satisfies index other isOther

theorem bindActor_decides (valid : scratch.Valid source)
    (present : scratch.initial[root]? = some owner) (isRoot : owner.parent = root)
    (delegated : DelegatedAt scratch.symbols root) (actor : UInt8) :
    Decides (Models source) scratch (Keeps source scratch)
      (fun holders => holderAt scratch.symbols holders root = some actor)
      (.ok (scratch.bindActor root actor)) := by
  cases known : owner.actor with
  | some held =>
    have agreement : ∀ holders, scratch.Models source holders →
        holderAt scratch.symbols holders root = some held :=
      fun holders isModel => isModel.holderAt_eq present isRoot known
    by_cases same : held = actor
    · subst same
      have result : scratch.bindActor root held = (true, scratch) := by
        simp [bindActor, present, known]
      rw [result]
      exact ⟨⟨valid, rfl, rfl⟩, fun holders =>
        ⟨fun isModel => ⟨isModel, agreement holders isModel⟩, And.left⟩⟩
    · have result : scratch.bindActor root actor = (false, scratch) := by
        simp [bindActor, present, known, same]
      rw [result]
      intro holders isModel holds
      rw [agreement holders isModel] at holds
      exact same (Option.some.inj holds)
  | none =>
    have result : scratch.bindActor root actor = (true, { scratch with
        initial := scratch.initial.set root { owner with actor := some actor } }) := by
      simp [bindActor, present, known]
    rw [result]
    refine ⟨⟨⟨?_, valid.distinct, ?_, ?_⟩, rfl, rfl⟩, ?_⟩
    · exact valid.wellFormed_of (List.length_set ..)
        (ranked_set_actor valid.wellFormed.ranked present (some actor))
    · intro index other isOther
      by_cases same : root = index
      · subst same
        rw [getElem_set_self present] at isOther
        cases isOther
        exact valid.joined root owner present
      · rw [List.getElem?_set_ne same] at isOther
        exact valid.joined index other isOther
    · intro index other isOther
      by_cases same : root = index
      · subst same
        exact fun _ => delegated
      · rw [List.getElem?_set_ne same] at isOther
        exact valid.bound index other isOther
    · exact models_congr scratch _ _ (satisfies_set_actor present isRoot known actor)

end BindActor

/-! ### Joining two classes -/

section Link

variable {scratch : Scratch} {top child : Nat} {topOwner childOwner : InitialOwner}

/-- The owner that `link` writes at the top root. -/
def linkedTop (topOwner childOwner : InitialOwner) : InitialOwner :=
  { topOwner with
    actor := topOwner.actor <|> childOwner.actor
    rank := if topOwner.rank = childOwner.rank then topOwner.rank + 1 else topOwner.rank }

/-- Reading the forest behind a link. -/
theorem link_getElem (isTop : scratch.initial[top]? = some topOwner)
    (isChild : scratch.initial[child]? = some childOwner) (ne : top ≠ child) (index : Nat) :
    (scratch.link top child topOwner childOwner).initial[index]? =
      if index = top then some (linkedTop topOwner childOwner)
      else if index = child then some { childOwner with parent := top }
      else scratch.initial[index]? := by
  obtain ⟨topInside, _⟩ := List.getElem?_eq_some_iff.mp isTop
  obtain ⟨childInside, _⟩ := List.getElem?_eq_some_iff.mp isChild
  unfold link
  by_cases atTop : index = top
  · subst atTop
    simp [linkedTop, topInside]
  · rw [if_neg atTop, List.getElem?_set_ne (Ne.symm atTop)]
    by_cases atChild : index = child
    · subst atChild
      simp [childInside]
    · rw [if_neg atChild, List.getElem?_set_ne (Ne.symm atChild)]

theorem link_length : (scratch.link top child topOwner childOwner).initial.length =
    scratch.initial.length := by
  simp [link]

/-- Linking below a root of at least the same rank keeps the forest ranked. -/
theorem ranked_link (ranked : Forest.Ranked (parentOf scratch.initial) (rankOf scratch.initial)
      scratch.initial.length)
    (isTop : scratch.initial[top]? = some topOwner)
    (isChild : scratch.initial[child]? = some childOwner) (ne : top ≠ child)
    (topRoot : topOwner.parent = top) (childRoot : childOwner.parent = child)
    (higher : childOwner.rank ≤ topOwner.rank) :
    Forest.Ranked (parentOf (scratch.link top child topOwner childOwner).initial)
      (rankOf (scratch.link top child topOwner childOwner).initial)
      (scratch.link top child topOwner childOwner).initial.length := by
  have read := link_getElem isTop isChild ne
  obtain ⟨topInside, _⟩ := List.getElem?_eq_some_iff.mp isTop
  have rankTop : rankOf (scratch.link top child topOwner childOwner).initial top =
      (linkedTop topOwner childOwner).rank := by
    rw [rankOf, read, if_pos rfl]
    rfl
  have rankOther : ∀ index, index ≠ top →
      rankOf (scratch.link top child topOwner childOwner).initial index =
        rankOf scratch.initial index := by
    intro index notTop
    rw [rankOf, read, if_neg notTop, rankOf]
    by_cases atChild : index = child
    · subst atChild
      rw [if_pos rfl, isChild]
      rfl
    · rw [if_neg atChild]
  have topGrows : rankOf scratch.initial top ≤ (linkedTop topOwner childOwner).rank := by
    simp only [rankOf, isTop, linkedTop, Option.map_some, Option.getD_some]
    split <;> omega
  refine ⟨fun index inside => ?_⟩
  rw [link_length] at inside ⊢
  by_cases atTop : index = top
  · subst atTop
    refine ⟨index, ?_, inside, .inl rfl⟩
    rw [parentOf, read, if_pos rfl]
    exact congrArg some topRoot
  · by_cases atChild : index = child
    · subst atChild
      refine ⟨top, ?_, topInside, .inr ?_⟩
      · rw [parentOf, read, if_neg atTop, if_pos rfl]
        rfl
      · rw [rankOther index atTop, rankTop]
        simp only [rankOf, isChild, linkedTop, Option.map_some, Option.getD_some]
        split <;> omega
    · obtain ⟨next, isNext, nextInside, step⟩ := ranked.step index inside
      refine ⟨next, ?_, nextInside, step.imp_right fun lower => ?_⟩
      · rw [parentOf, read, if_neg atTop, if_neg atChild]
        exact isNext
      · rw [rankOther index atTop]
        by_cases nextTop : next = top
        · subst nextTop
          rw [rankTop]
          omega
        · rw [rankOther next nextTop]
          exact lower

theorem satisfies_link (isTop : scratch.initial[top]? = some topOwner)
    (isChild : scratch.initial[child]? = some childOwner) (ne : top ≠ child)
    (topRoot : topOwner.parent = top) (childRoot : childOwner.parent = child)
    (agree : ∀ topActor childActor, topOwner.actor = some topActor →
      childOwner.actor = some childActor → topActor = childActor) (holders : Holders) :
    Satisfies symbols (scratch.link top child topOwner childOwner).initial holders ↔
      Satisfies symbols scratch.initial holders ∧
        holderAt symbols holders child = holderAt symbols holders top := by
  have read := link_getElem isTop isChild ne
  constructor
  · intro satisfies
    have atTop := satisfies top (linkedTop topOwner childOwner) (by rw [read, if_pos rfl])
    have atChild := satisfies child { childOwner with parent := top }
      (by rw [read, if_neg ne.symm, if_pos rfl])
    refine ⟨?_, atChild.1⟩
    intro index owner isOwner
    by_cases isTopIndex : index = top
    · subst isTopIndex
      rw [isTop] at isOwner
      cases isOwner
      refine ⟨by rw [topRoot], fun _ actor isActor => atTop.2 topRoot actor ?_⟩
      simp [linkedTop, isActor]
    · by_cases isChildIndex : index = child
      · subst isChildIndex
        rw [isChild] at isOwner
        cases isOwner
        refine ⟨by rw [childRoot], fun _ actor isActor =>
          atChild.1.trans (atTop.2 topRoot actor ?_)⟩
        cases known : topOwner.actor with
        | none => simp [linkedTop, known, isActor]
        | some held => simp [linkedTop, known, agree held actor known isActor]
      · exact satisfies index owner (by rw [read, if_neg isTopIndex, if_neg isChildIndex, isOwner])
  · rintro ⟨satisfies, same⟩ index owner isOwner
    rw [read] at isOwner
    by_cases isTopIndex : index = top
    · subst isTopIndex
      rw [if_pos rfl] at isOwner
      cases isOwner
      refine ⟨by rw [show (linkedTop topOwner childOwner).parent = index from topRoot], ?_⟩
      intro _ actor isActor
      cases known : topOwner.actor with
      | some held =>
        simp only [linkedTop, known] at isActor
        obtain rfl := Option.some.inj isActor
        exact (satisfies index topOwner isTop).2 topRoot held known
      | none =>
        simp only [linkedTop, known] at isActor
        rw [← same]
        exact (satisfies child childOwner isChild).2 childRoot actor isActor
    · rw [if_neg isTopIndex] at isOwner
      by_cases isChildIndex : index = child
      · subst isChildIndex
        rw [if_pos rfl] at isOwner
        cases isOwner
        exact ⟨same, fun isRoot => absurd isRoot ne⟩
      · rw [if_neg isChildIndex] at isOwner
        exact satisfies index owner isOwner

/-- Linking two delegated roots adds the equation between them. -/
theorem link_decides (valid : scratch.Valid source) (isTop : scratch.initial[top]? = some topOwner)
    (isChild : scratch.initial[child]? = some childOwner) (ne : top ≠ child)
    (topRoot : topOwner.parent = top) (childRoot : childOwner.parent = child)
    (higher : childOwner.rank ≤ topOwner.rank)
    (agree : ∀ topActor childActor, topOwner.actor = some topActor →
      childOwner.actor = some childActor → topActor = childActor)
    (topDelegated : DelegatedAt scratch.symbols top)
    (childDelegated : DelegatedAt scratch.symbols child) :
    Decides (Models source) scratch (Keeps source scratch)
      (fun holders => holderAt scratch.symbols holders child = holderAt scratch.symbols holders top)
      (.ok (true, scratch.link top child topOwner childOwner)) := by
  have read := link_getElem isTop isChild ne
  have ranked := ranked_link valid.wellFormed.ranked isTop isChild ne topRoot childRoot higher
  refine ⟨⟨⟨valid.wellFormed_of link_length ranked, valid.distinct, ?_, ?_⟩, rfl, rfl⟩, ?_⟩
  · intro index owner isOwner moved
    rw [read] at isOwner
    by_cases atTop : index = top
    · subst atTop
      rw [if_pos rfl] at isOwner
      cases isOwner
      exact absurd topRoot moved
    · rw [if_neg atTop] at isOwner
      by_cases atChild : index = child
      · subst atChild
        rw [if_pos rfl] at isOwner
        cases isOwner
        exact ⟨childDelegated, topDelegated⟩
      · rw [if_neg atChild] at isOwner
        exact valid.joined index owner isOwner moved
  · intro index owner isOwner known
    rw [read] at isOwner
    by_cases atTop : index = top
    · subst atTop
      exact topDelegated
    · rw [if_neg atTop] at isOwner
      by_cases atChild : index = child
      · subst atChild
        exact childDelegated
      · rw [if_neg atChild] at isOwner
        exact valid.bound index owner isOwner known
  · exact models_congr scratch _ _ (satisfies_link isTop isChild ne topRoot childRoot agree)

end Link

/-- Two different actors cannot own one class, and otherwise the lower root is linked. -/
theorem joinRoots_decides (valid : scratch.Valid source) {left right : Nat}
    {leftOwner rightOwner : InitialOwner} (isLeft : scratch.initial[left]? = some leftOwner)
    (isRight : scratch.initial[right]? = some rightOwner) (leftRoot : leftOwner.parent = left)
    (rightRoot : rightOwner.parent = right) (leftDelegated : DelegatedAt scratch.symbols left)
    (rightDelegated : DelegatedAt scratch.symbols right) :
    Decides (Models source) scratch (Keeps source scratch)
      (fun holders => holderAt scratch.symbols holders left =
        holderAt scratch.symbols holders right)
      (.ok (scratch.joinRoots left right)) := by
  by_cases same : left = right
  · subst same
    have result : scratch.joinRoots left left = (true, scratch) := by simp [joinRoots]
    rw [result]
    exact ⟨⟨valid, rfl, rfl⟩, fun holders => ⟨fun isModel => ⟨isModel, rfl⟩, And.left⟩⟩
  · have linked : (∀ leftActor rightActor, leftOwner.actor = some leftActor →
        rightOwner.actor = some rightActor → leftActor = rightActor) →
        scratch.joinRoots left right = if leftOwner.rank < rightOwner.rank then
            (true, scratch.link right left rightOwner leftOwner)
          else (true, scratch.link left right leftOwner rightOwner) := by
      intro agree
      unfold joinRoots
      rw [if_neg same, isLeft, isRight]
      simp only
      split
      · rename_i leftActor rightActor isLeftActor isRightActor
        rw [agree leftActor rightActor isLeftActor isRightActor]
        simp
      · simp
    by_cases agree : ∀ leftActor rightActor, leftOwner.actor = some leftActor →
        rightOwner.actor = some rightActor → leftActor = rightActor
    · rw [linked agree]
      split
      · exact link_decides valid isRight isLeft (Ne.symm same) rightRoot leftRoot (by omega)
          (fun _ _ isRightActor isLeftActor => (agree _ _ isLeftActor isRightActor).symm)
          rightDelegated leftDelegated
      · refine (link_decides valid isLeft isRight same leftRoot rightRoot (by omega) agree
          leftDelegated rightDelegated).imp (fun _ => id) fun holders _ => ?_
        exact eq_comm
    · push Not at agree
      obtain ⟨leftActor, rightActor, isLeftActor, isRightActor, clash⟩ := agree
      have result : scratch.joinRoots left right = (false, scratch) := by
        simp [joinRoots, same, isLeft, isRight, isLeftActor, isRightActor, clash]
      rw [result]
      intro holders isModel equal
      rw [isModel.holderAt_eq isLeft leftRoot isLeftActor,
        isModel.holderAt_eq isRight rightRoot isRightActor] at equal
      exact clash (Option.some.inj equal)

/-! ### Unification -/

/-- The actor that an owner denotes under an assignment of initial owners. -/
def ownerHolder (symbols : List Symbol) (holders : Holders) : Owner → Option UInt8
  | .actor actor => some actor
  | .initial index => holderAt symbols holders index

/-- An owner that equations may be about. -/
def OwnerValid (symbols : List Symbol) : Owner → Prop
  | .actor _ => True
  | .initial index => DelegatedAt symbols index

/-- The root of a delegated endpoint is a delegated root with the same owner in every model. -/
theorem Valid.root_ok (valid : scratch.Valid source)
    (delegated : DelegatedAt scratch.symbols index) :
    ∃ top owner, scratch.root index = .ok top ∧ scratch.initial[top]? = some owner ∧
      owner.parent = top ∧ DelegatedAt scratch.symbols top ∧
      ∀ holders, scratch.Models source holders →
        holderAt scratch.symbols holders index = holderAt scratch.symbols holders top := by
  have inside : index < scratch.symbols.length := by
    obtain ⟨symbol, isSymbol, _⟩ := delegated
    exact (List.getElem?_eq_some_iff.mp isSymbol).1
  obtain ⟨top, isTop, _⟩ := valid.wellFormed.rootOf_ok inside
  obtain ⟨owner, isOwner, isRoot⟩ :=
    Option.map_eq_some_iff.mp (Forest.parent_of_root_eq_ok isTop)
  have step : ∀ index next, parentOf scratch.initial index = some next →
      DelegatedAt scratch.symbols index → DelegatedAt scratch.symbols next := by
    intro index next isNext delegated
    obtain ⟨owner, isOwner, rfl⟩ := Option.map_eq_some_iff.mp isNext
    by_cases moved : owner.parent = index
    · rw [moved]
      exact delegated
    · exact (valid.joined index owner isOwner moved).2
  exact ⟨top, owner, isTop, isOwner, isRoot, Forest.property_of_root_eq_ok step isTop delegated,
    fun holders isModel => isModel.satisfies.root isTop⟩

/-- Unification adds the equation between two owners. -/
theorem unify_decides (valid : scratch.Valid source) {left right : Owner}
    (leftValid : OwnerValid scratch.symbols left) (rightValid : OwnerValid scratch.symbols right) :
    Decides (Models source) scratch (Keeps source scratch)
      (fun holders => ownerHolder scratch.symbols holders left =
        ownerHolder scratch.symbols holders right)
      (scratch.unify left right) := by
  cases left with
  | actor leftActor =>
    cases right with
    | actor rightActor =>
      by_cases same : leftActor = rightActor
      · have result : scratch.unify (.actor leftActor) (.actor rightActor) =
            .ok (true, scratch) := by
          simp [unify, same]
        rw [result]
        refine ⟨⟨valid, rfl, rfl⟩, fun holders => ⟨fun isModel => ⟨isModel, ?_⟩, And.left⟩⟩
        rw [same]
      · have result : scratch.unify (.actor leftActor) (.actor rightActor) =
            .ok (false, scratch) := by
          simp [unify, same]
        rw [result]
        intro holders _ equal
        exact same (Option.some.inj equal)
    | initial index =>
      obtain ⟨top, owner, isTop, isOwner, isRoot, delegated, classHolder⟩ :=
        valid.root_ok rightValid
      have result : scratch.unify (.actor leftActor) (.initial index) =
          .ok (scratch.bindActor top leftActor) := by
        simp [unify, isTop]
      rw [result]
      refine (bindActor_decides valid isOwner isRoot delegated leftActor).imp (fun _ => id) ?_
      intro holders isModel
      rw [← classHolder holders isModel]
      exact eq_comm
  | initial index =>
    obtain ⟨top, owner, isTop, isOwner, isRoot, delegated, classHolder⟩ := valid.root_ok leftValid
    cases right with
    | actor rightActor =>
      have result : scratch.unify (.initial index) (.actor rightActor) =
          .ok (scratch.bindActor top rightActor) := by
        simp [unify, isTop]
      rw [result]
      refine (bindActor_decides valid isOwner isRoot delegated rightActor).imp (fun _ => id) ?_
      intro holders isModel
      rw [← classHolder holders isModel]
      rfl
    | initial other =>
      obtain ⟨otherTop, otherOwner, isOtherTop, isOtherOwner, isOtherRoot, otherDelegated,
        otherClass⟩ := valid.root_ok rightValid
      have result : scratch.unify (.initial index) (.initial other) =
          .ok (scratch.joinRoots top otherTop) := by
        simp [unify, isTop, isOtherTop]
      rw [result]
      refine (joinRoots_decides valid isOwner isOtherOwner isRoot isOtherRoot delegated
        otherDelegated).imp (fun _ => id) ?_
      intro holders isModel
      rw [← classHolder holders isModel, ← otherClass holders isModel]
      rfl

theorem atom_spec {atom : Atom} (collected : (scratch.query source).Collected atom) :
    ∃ owner, scratch.atom atom = .ok owner ∧ OwnerValid scratch.symbols owner ∧
      ∀ holders, ownerHolder scratch.symbols holders owner = some (atom.denote holders) := by
  cases atom with
  | actor actor => exact ⟨.actor actor, rfl, trivial, fun _ => rfl⟩
  | initial key =>
    obtain ⟨index, symbol, isIndex, isSymbol, kind⟩ := Query.symbolIndex_of_isDelegated collected
    have found : symbolIndex scratch.symbols key = some index := isIndex
    exact ⟨.initial index, by simp [Scratch.atom, found], ⟨symbol, isSymbol, kind⟩,
      fun holders => holderAt_of_symbolIndex found holders⟩

/-! ### Splitting on open routes -/

/-- The two places have one holder on every assignment that agrees with the path. -/
def SameHolder (source : Source) (left right : At) (context : Context) (holders : Holders) : Prop :=
  ∀ assignment, context.Agrees assignment →
    source.holdersAt assignment holders left.cut left.key =
      source.holdersAt assignment holders right.cut right.key

variable {left right : At} {context : Context}

/-- Two answers that are atoms give one equation between them. -/
theorem sameHolder_iff_of_answers {leftAtom rightAtom : Atom}
    (leftAnswers : (scratch.query source).Answers left context (.atom leftAtom))
    (rightAnswers : (scratch.query source).Answers right context (.atom rightAtom))
    (leftCloses : context.Closes source 0 left.cut)
    (rightCloses : context.Closes source 0 right.cut) (isModel : scratch.Models source holders) :
    leftAtom.denote holders = rightAtom.denote holders ↔
      SameHolder source left right context holders := by
  constructor
  · intro same env agrees
    calc source.holdersAt env holders left.cut left.key
        = leftAtom.denote holders :=
          (leftAnswers.2 leftCloses holders isModel env agrees).symm
      _ = rightAtom.denote holders := same
      _ = source.holdersAt env holders right.cut right.key :=
          rightAnswers.2 rightCloses holders isModel env agrees
  · intro same
    have agrees := context.agrees_completed
    calc leftAtom.denote holders
        = source.holdersAt context.completed holders left.cut left.key :=
          leftAnswers.2 leftCloses holders isModel _ agrees
      _ = source.holdersAt context.completed holders right.cut right.key := same _ agrees
      _ = rightAtom.denote holders :=
          (rightAnswers.2 rightCloses holders isModel _ agrees).symm

theorem Keeps.trans {first second third : Scratch} (before : Keeps source first second)
    (after : Keeps source second third) : Keeps source first third :=
  ⟨after.1, after.2.1.trans before.2.1, after.2.2.trans before.2.2⟩

/-- The equations of both arms of an open route are the equation itself. -/
theorem split_decides (next : Scratch → Context → Run (Bool × Scratch)) {scope : Scope}
    (isOpen : context.get scope = none)
    (arms : ∀ reached, reached.Valid source → ∀ arm,
      Decides (Models source) reached (Keeps source reached)
        (SameHolder source left right (context.select ⟨scope, arm⟩))
        (next reached (context.select ⟨scope, arm⟩))) (valid : scratch.Valid source) :
    Decides (Models source) scratch (Keeps source scratch) (SameHolder source left right context)
      (next scratch (context.select ⟨scope, .left⟩) >>= fun answer =>
        if answer.1 then next answer.2 (context.select ⟨scope, .right⟩)
        else pure (false, answer.2)) := by
  have second : ∀ reached, Keeps source scratch reached →
      Decides (Models source) reached (Keeps source scratch)
        (SameHolder source left right (context.select ⟨scope, .right⟩))
        (next reached (context.select ⟨scope, .right⟩)) :=
    fun reached kept => (arms reached kept.1 .right).imp (fun _ => kept.trans) fun _ _ => Iff.rfl
  refine ((arms scratch valid .left).bind second).imp (fun _ => id) fun holders _ => ?_
  exact (Context.forall_agrees_iff isOpen _).symm

theorem equateFuel_decides (fuel : Nat) (valid : scratch.Valid source) (left right : At)
    (context : Context) (leftCloses : context.Closes source 0 left.cut)
    (rightCloses : context.Closes source 0 right.cut)
    (enough : (Context.openScopes (source.routes 0) context).card < fuel) :
    Decides (Models source) scratch (Keeps source scratch) (SameHolder source left right context)
      (equateFuel source fuel scratch left right context) := by
  induction fuel generalizing scratch context with
  | zero => omega
  | succ fuel hyp =>
    obtain ⟨leftOwner, isLeft, leftAnswers⟩ :=
      Query.owner_answers valid.wellFormed left context
    obtain ⟨rightOwner, isRight, rightAnswers⟩ :=
      Query.owner_answers valid.wellFormed right context
    -- A choice on either side splits the equation.
    have split : ∀ scope ∈ source.routes 0, context.get scope = none →
        Decides (Models source) scratch (Keeps source scratch)
          (SameHolder source left right context)
          (equateFuel source fuel scratch left right (context.select ⟨scope, .left⟩) >>=
            fun answer =>
              if answer.1 then
                equateFuel source fuel answer.2 left right (context.select ⟨scope, .right⟩)
              else pure (false, answer.2)) := by
      intro scope mem isOpen
      refine split_decides (fun reached path => equateFuel source fuel reached left right path)
        isOpen ?_ valid
      intro reached reachedValid arm
      have fewer := Context.openScopes_select_lt mem isOpen arm
      exact hyp reachedValid _ (leftCloses.select _) (rightCloses.select _) (by omega)
    simp only [equateFuel, isLeft, isRight, Run.bind_ok]
    cases leftOwner with
    | choice scope => exact split scope leftAnswers.1 leftAnswers.2.1
    | atom leftAtom =>
      cases rightOwner with
      | choice scope => exact split scope rightAnswers.1 rightAnswers.2.1
      | atom rightAtom =>
        obtain ⟨leftSide, isLeftSide, leftValid, leftDenotes⟩ := atom_spec leftAnswers.1
        obtain ⟨rightSide, isRightSide, rightValid, rightDenotes⟩ := atom_spec rightAnswers.1
        simp only [isLeftSide, isRightSide, Run.bind_ok]
        refine (unify_decides valid leftValid rightValid).imp (fun _ => id) ?_
        intro holders isModel
        rw [leftDenotes, rightDenotes, Option.some_inj]
        exact sameHolder_iff_of_answers leftAnswers rightAnswers leftCloses rightCloses isModel

/-- Equating two places adds that they have one holder on every assignment of the path. -/
theorem equate_decides (valid : scratch.Valid source) (left right : At) (context : Context)
    (leftCloses : context.Closes source 0 left.cut)
    (rightCloses : context.Closes source 0 right.cut) :
    Decides (Models source) scratch (Keeps source scratch)
      (SameHolder source left right context) (scratch.equate source left right context) :=
  equateFuel_decides _ valid left right context leftCloses rightCloses
    (Nat.lt_succ_of_le (Context.openScopes_card_le _ context))

end Scratch

end Hibana
