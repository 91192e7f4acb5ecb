/-
This file characterises the sources that ownership validation accepts.

Collection builds a symbol table with every endpoint of the source exactly once,
marked as delegated exactly when some message carries it. The forest starts with
every endpoint on its own, so every assignment of initial owners is a model, and
the walk keeps exactly the consistent ones. A class without an actor could be
owned by any actor; hence every delegated endpoint is rooted exactly when the
consistent assignment is unique.
-/

import HibanaChoreography.Ownership.Accepted

namespace Hibana

open Outcome Constraint List

/-! ### Collection -/

/-- The endpoints that a message names. -/
def Message.keys (message : Message) : List EndpointKey :=
  match message.payload with
  | .endpoint key => [message.fromKey, message.toKey, key]
  | .wire _ => [message.fromKey, message.toKey]

/-- The endpoints that a source names. -/
def Source.endpointKeys (source : Source) : List EndpointKey :=
  source.messages.flatMap Message.keys

namespace Scratch

/-- A symbol table with exactly the used endpoints, of which the carried ones are delegated. All
of them are among the endpoints that may be collected. -/
structure Table (allowed used carried : EndpointKey → Prop) (symbols : List Symbol) : Prop where
  distinct : (symbols.map Symbol.key).Nodup
  keys : ∀ key, key ∈ symbols.map Symbol.key ↔ used key
  kinds : ∀ (index : Nat) (symbol : Symbol), symbols[index]? = some symbol →
    (symbol.kind = .delegated ↔ carried symbol.key)
  carriedUsed : ∀ key, carried key → used key
  usedAllowed : ∀ key, used key → allowed key

variable {allowed used carried : EndpointKey → Prop} {symbols : List Symbol} {key : EndpointKey}
  {index : Nat} {scratch : Scratch} {owner : InitialOwner}

theorem mem_keys_of_symbolIndex (found : symbolIndex symbols key = some index) :
    key ∈ symbols.map Symbol.key := by
  obtain ⟨symbol, isSymbol, isKey⟩ := symbolIndex_spec found
  exact mem_map.mpr ⟨symbol, mem_of_getElem? isSymbol, isKey⟩

theorem notMem_keys_of_symbolIndex (absent : symbolIndex symbols key = none) :
    key ∉ symbols.map Symbol.key := by
  intro mem
  obtain ⟨symbol, inSymbols, isKey⟩ := mem_map.mp mem
  have other := findIdx?_eq_none_iff.mp absent symbol inSymbols
  simp [isKey] at other

variable {symbol : Symbol}

/-- In a table without repetitions an endpoint is found where it stands. -/
theorem symbolIndex_of_getElem (distinct : (symbols.map Symbol.key).Nodup)
    (isSymbol : symbols[index]? = some symbol) : symbolIndex symbols symbol.key = some index := by
  cases found : symbolIndex symbols symbol.key with
  | none =>
    exact absurd (mem_map.mpr ⟨symbol, mem_of_getElem? isSymbol, rfl⟩)
      (notMem_keys_of_symbolIndex found)
  | some other =>
    obtain ⟨same, isSame, isKey⟩ := symbolIndex_spec found
    have inside := (List.getElem?_eq_some_iff.mp isSame).1
    have equal : (symbols.map Symbol.key)[other]? = (symbols.map Symbol.key)[index]? := by
      rw [getElem?_map, getElem?_map, isSame, isSymbol]
      exact congrArg some isKey
    rw [(getElem?_inj (by rw [length_map]; exact inside) distinct).mp equal]

/-- Marking an endpoint that is already there. -/
theorem Table.mark (table : Table allowed used carried symbols)
    (found : symbolIndex symbols key = some index) :
    Table allowed used (fun other => carried other ∨ other = key)
      (symbols.set index ⟨key, .delegated⟩) := by
  obtain ⟨symbol, isSymbol, isKey⟩ := symbolIndex_spec found
  obtain ⟨inside, isElement⟩ := List.getElem?_eq_some_iff.mp isSymbol
  have keys : (symbols.set index ⟨key, .delegated⟩).map Symbol.key = symbols.map Symbol.key := by
    rw [map_set]
    refine ext_getElem? fun position => ?_
    by_cases same : index = position
    · subst same
      simp [inside, isElement, isKey]
    · rw [getElem?_set_ne same]
  refine ⟨by rw [keys]; exact table.distinct, by rw [keys]; exact table.keys, ?_, ?_,
    table.usedAllowed⟩
  · intro position other isOther
    by_cases same : index = position
    · subst same
      rw [getElem?_set_self inside] at isOther
      cases isOther
      exact ⟨fun _ => .inr rfl, fun _ => rfl⟩
    · rw [getElem?_set_ne same] at isOther
      have ne : other.key ≠ key := by
        rintro rfl
        have atOther := symbolIndex_of_getElem table.distinct isOther
        rw [found] at atOther
        exact same (Option.some.inj atOther)
      rw [table.kinds position other isOther]
      exact ⟨.inl, fun either => either.resolve_right ne⟩
  · rintro other (isCarried | rfl)
    · exact table.carriedUsed other isCarried
    · exact (table.keys other).mp (mem_keys_of_symbolIndex found)

/-- Adding an endpoint that is not there yet. -/
theorem Table.add (table : Table allowed used carried symbols) (isAllowed : allowed key)
    (absent : symbolIndex symbols key = none) (kind : EndpointKind) :
    Table allowed (fun other => used other ∨ other = key)
      (fun other => carried other ∨ (kind = .delegated ∧ other = key))
      (symbols ++ [⟨key, kind⟩]) := by
  have fresh := notMem_keys_of_symbolIndex absent
  refine ⟨?_, ?_, ?_, ?_, ?_⟩
  · rw [map_append, nodup_append]
    refine ⟨table.distinct, nodup_singleton _, ?_⟩
    intro first inFirst second inSecond same
    rw [map_singleton, mem_singleton] at inSecond
    rw [same, inSecond] at inFirst
    exact fresh inFirst
  · intro other
    rw [map_append, mem_append, table.keys other, map_singleton, mem_singleton]
  · intro position other isOther
    rcases Nat.lt_or_ge position symbols.length with inside | outside
    · rw [getElem?_append_left inside] at isOther
      have ne : other.key ≠ key := by
        rintro rfl
        exact fresh (mem_map.mpr ⟨other, mem_of_getElem? isOther, rfl⟩)
      rw [table.kinds position other isOther]
      exact ⟨.inl, fun either => either.resolve_right fun last => ne last.2⟩
    · rw [getElem?_append_right outside] at isOther
      obtain rfl : (⟨key, kind⟩ : Symbol) = other := by
        have last := mem_of_getElem? isOther
        exact (mem_singleton.mp last).symm
      have notCarried : ¬ carried key := fun isCarried =>
        fresh ((table.keys key).mpr (table.carriedUsed key isCarried))
      exact ⟨fun isDelegated => .inr ⟨isDelegated, rfl⟩,
        fun either => (either.resolve_left notCarried).1⟩
  · rintro other (isCarried | ⟨_, rfl⟩)
    · exact .inl (table.carriedUsed other isCarried)
    · exact .inr rfl
  · rintro other (isUsed | rfl)
    · exact table.usedAllowed other isUsed
    · exact isAllowed

variable {otherUsed otherCarried : EndpointKey → Prop}

theorem Table.congr (table : Table allowed used carried symbols)
    (sameUsed : ∀ key, used key ↔ otherUsed key)
    (sameCarried : ∀ key, carried key ↔ otherCarried key) :
    Table allowed otherUsed otherCarried symbols := by
  obtain rfl : used = otherUsed := funext fun key => propext (sameUsed key)
  obtain rfl : carried = otherCarried := funext fun key => propext (sameCarried key)
  exact table

/-- The capacity suffices for every set of endpoints that may be collected. -/
structure Room (capacity : Nat) (allowed : EndpointKey → Prop) : Prop where
  small : capacity ≤ 65535
  enough : ∀ keys : List EndpointKey, keys.Nodup → (∀ key ∈ keys, allowed key) →
    keys.length ≤ capacity

/-- A step of collection returns a table with these endpoints and changes nothing else, or it
refuses for want of room. -/
def Collects (capacity : Nat) (allowed used carried : EndpointKey → Prop) (scratch : Scratch)
    (result : Checked Error Scratch) : Prop :=
  (∃ symbols, result = .ok { scratch with symbols := symbols } ∧
      Table allowed used carried symbols ∧ symbols.length ≤ capacity) ∨
    (¬ Room capacity allowed ∧ ∃ error, result = refuse error)

variable {capacity : Nat}

theorem collectKey_collects (table : Table allowed used carried scratch.symbols)
    (small : scratch.symbols.length ≤ capacity) (isAllowed : allowed key) (kind : EndpointKind) :
    Collects capacity allowed (fun other => used other ∨ other = key)
      (fun other => carried other ∨ (kind = .delegated ∧ other = key)) scratch
      (scratch.collectKey capacity key kind) := by
  cases found : symbolIndex scratch.symbols key with
  | some index =>
    have isUsed : used key := (table.keys key).mp (mem_keys_of_symbolIndex found)
    have sameUsed : ∀ other, used other ↔ used other ∨ other = key := fun other =>
      ⟨.inl, fun either => either.elim id fun same => same ▸ isUsed⟩
    cases kind with
    | control =>
      refine .inl ⟨scratch.symbols, by simp [collectKey, found],
        table.congr sameUsed fun other => ?_, small⟩
      exact ⟨.inl, fun either => either.resolve_right fun last => by cases last.1⟩
    | delegated =>
      refine .inl ⟨_, by simp only [collectKey, found],
        (table.mark found).congr sameUsed fun other => ?_, by rw [length_set]; exact small⟩
      rw [and_iff_right rfl]
  | none =>
    by_cases full : scratch.symbols.length = capacity ∨ 65535 ≤ scratch.symbols.length
    · refine .inr ⟨fun room => ?_, ⟨.capacity, some key⟩, by
        simp only [collectKey, found, if_pos full]⟩
      -- With the new endpoint the table would exceed the capacity.
      have fresh := notMem_keys_of_symbolIndex found
      have longer := room.enough (key :: scratch.symbols.map Symbol.key)
        (nodup_cons.mpr ⟨fresh, table.distinct⟩) (by
          intro other mem
          rcases mem_cons.mp mem with rfl | inTable
          · exact isAllowed
          · exact table.usedAllowed other ((table.keys other).mp inTable))
      rw [length_cons, length_map] at longer
      have roomSmall := room.small
      omega
    · refine .inl ⟨_, by simp only [collectKey, found, if_neg full],
        table.add isAllowed found kind, ?_⟩
      rw [length_append, length_singleton]
      omega

variable {result : Checked Error Scratch}

/-- Two steps of collection, one after the other. -/
theorem Collects.bind {firstUsed firstCarried lastUsed lastCarried : EndpointKey → Prop}
    {next : Scratch → Checked Error Scratch}
    (collects : Collects capacity allowed firstUsed firstCarried scratch result)
    (collectsNext : ∀ reached : Scratch, Table allowed firstUsed firstCarried reached.symbols →
      reached.symbols.length ≤ capacity →
      Collects capacity allowed lastUsed lastCarried reached (next reached)) :
    Collects capacity allowed lastUsed lastCarried scratch (result >>= next) := by
  rcases collects with ⟨symbols, rfl, table, small⟩ | ⟨noRoom, error, rfl⟩
  · rw [Run.bind_ok]
    exact collectsNext { scratch with symbols := symbols } table small
  · exact .inr ⟨noRoom, error, rfl⟩

theorem Collects.congr (collects : Collects capacity allowed used carried scratch result)
    (sameUsed : ∀ key, used key ↔ otherUsed key)
    (sameCarried : ∀ key, carried key ↔ otherCarried key) :
    Collects capacity allowed otherUsed otherCarried scratch result := by
  refine collects.imp_left ?_
  rintro ⟨symbols, isResult, table, small⟩
  exact ⟨symbols, isResult, table.congr sameUsed sameCarried, small⟩

/-- Collection adds the endpoints that a source uses, and marks those that it transfers. -/
theorem collect_collects (source : Source) (inside : ∀ key, source.uses key = true → allowed key)
    (table : Table allowed used carried scratch.symbols)
    (small : scratch.symbols.length ≤ capacity) :
    Collects capacity allowed (fun key => used key ∨ source.uses key = true)
      (fun key => carried key ∨ source.transfers key = true) scratch
      (scratch.collect capacity source) := by
  induction source generalizing scratch used carried with
  | send message =>
    have fromAllowed : allowed message.fromKey := inside _ (by simp [Source.uses])
    have toAllowed : allowed message.toKey := inside _ (by simp [Source.uses])
    have transfersSend : ∀ key, (Source.send message).transfers key = true ↔
        message.payload = .endpoint key := fun key => by
      rw [Source.transfers_iff]
      simp [Source.messages]
    have usesSend : ∀ key, (Source.send message).uses key = true ↔ message.fromKey = key ∨
        message.toKey = key ∨ message.payload = .endpoint key := fun key => by
      rw [Source.uses_iff]
      simp [Source.messages]
    have first := collectKey_collects table small fromAllowed .control
    have both := first.bind fun reached table small =>
      collectKey_collects table small toAllowed .control
    cases payload : message.payload with
    | wire schema =>
      have result : scratch.collect capacity (.send message) =
          (scratch.collectKey capacity message.fromKey .control >>= fun reached =>
            reached.collectKey capacity message.toKey .control) := by
        unfold collect
        simp [payload]
      rw [result]
      refine both.congr (fun key => ?_) fun key => ?_
      · rw [usesSend, payload]
        simp [eq_comm, or_assoc]
      · rw [transfersSend, payload]
        simp
    | endpoint moved =>
      have movedAllowed : allowed moved := inside _ (by simp [Source.uses, payload])
      have all := both.bind fun reached table small =>
        collectKey_collects table small movedAllowed .delegated
      have result : scratch.collect capacity (.send message) =
          (scratch.collectKey capacity message.fromKey .control >>= fun reached =>
            reached.collectKey capacity message.toKey .control) >>= fun reached =>
              reached.collectKey capacity moved .delegated := by
        unfold collect
        simp [payload]
      rw [result]
      refine all.congr (fun key => ?_) fun key => ?_
      · rw [usesSend, payload]
        simp [eq_comm, or_assoc]
      · rw [transfersSend, payload]
        simp [eq_comm]
  | seq left right hypLeft hypRight | par left right hypLeft hypRight
  | route left right resolver hypLeft hypRight =>
    have first := hypLeft (fun key isUsed => inside key (by simp [Source.uses, isUsed]))
      table small
    have both := first.bind fun reached table small =>
      hypRight (fun key isUsed => inside key (by simp [Source.uses, isUsed])) table small
    refine both.congr (fun key => ?_) fun key => ?_
    · simp [Source.uses, or_assoc]
    · simp only [Source.transfers_iff, Source.messages, mem_append, or_and_right, exists_or,
        or_assoc]
  | roll body hypBody =>
    refine (hypBody inside table small).congr (fun key => Iff.rfl) fun key => ?_
    simp only [Source.transfers_iff, Source.messages]

/-- The table of a source, in an empty scratch. -/
theorem collect_empty (capacity : Nat) (source : Source) :
    Collects capacity (fun key => source.uses key = true) (fun key => source.uses key = true)
      (fun key => source.transfers key = true) empty (empty.collect capacity source) := by
  have table : Table (fun key => source.uses key = true) (fun _ => False) (fun _ => False)
      empty.symbols :=
    ⟨nodup_nil, fun key => by simp [empty], fun index symbol isSymbol => by
      simp [empty] at isSymbol, fun _ => id, fun _ => False.elim⟩
  exact (collect_collects source (fun _ => id) table (Nat.zero_le _)).congr
    (fun key => iff_of_eq (false_or _)) fun key => iff_of_eq (false_or _)

/-! ### The first forest -/

/-- The table of a collected source. -/
def SourceTable (source : Source) (scratch : Scratch) : Prop :=
  Table (fun key => source.uses key = true) (fun key => source.uses key = true)
    (fun key => source.transfers key = true) scratch.symbols

variable {source : Source}

theorem SourceTable.isDelegated_iff (table : SourceTable source scratch) (key : EndpointKey) :
    (scratch.query source).isDelegated key = true ↔ source.transfers key = true := by
  constructor
  · intro delegated
    obtain ⟨index, symbol, isIndex, isSymbol, kind⟩ := Query.symbolIndex_of_isDelegated delegated
    obtain ⟨found, isFound, isKey⟩ := symbolIndex_spec isIndex
    rw [isSymbol] at isFound
    cases isFound
    rw [← isKey]
    exact (table.kinds index symbol isSymbol).mp kind
  · intro transferred
    have inTable := (table.keys key).mpr (table.carriedUsed key transferred)
    cases found : symbolIndex scratch.symbols key with
    | none => exact absurd inTable (notMem_keys_of_symbolIndex found)
    | some index =>
      obtain ⟨symbol, isSymbol, isKey⟩ := symbolIndex_spec found
      have kind : symbol.kind = .delegated :=
        (table.kinds index symbol isSymbol).mpr (by rw [isKey]; exact transferred)
      rw [Query.isDelegated_eq]
      show ((symbolIndex scratch.symbols key).bind (scratch.symbols[·]?)).any _ = true
      rw [found]
      simp [isSymbol, kind]

theorem SourceTable.static_iff (table : SourceTable source scratch) (key : EndpointKey) :
    (scratch.query source).isDelegated key = false ↔ source.transfers key = false := by
  rw [← Bool.not_eq_true, ← Bool.not_eq_true, table.isDelegated_iff]

theorem initializeOwners_getElem (isOwner : scratch.initializeOwners.initial[index]? = some owner) :
    owner = ⟨index, 0, none⟩ := by
  obtain ⟨position, inRange, rfl⟩ := getElem?_map .. ▸ isOwner |> Option.map_eq_some_iff.mp
  obtain ⟨inside, same⟩ := List.getElem?_eq_some_iff.mp inRange
  rw [getElem_range] at same
  rw [same]

theorem initializeOwners_valid (table : SourceTable source scratch) :
    scratch.initializeOwners.Valid source where
  wellFormed :=
    { size := by simp [initializeOwners, query]
      ranked := by
        refine ⟨fun index inside => ⟨index, ?_, inside, .inl rfl⟩⟩
        have present := getElem?_eq_getElem inside
        rw [parentOf, present, initializeOwners_getElem present]
        rfl
      carried := by
        intro message mem key isCarried
        exact (table.isDelegated_iff key).mpr
          ((Source.transfers_iff source key).mpr ⟨message, mem, isCarried⟩) }
  distinct := table.distinct
  joined := by
    intro index owner isOwner moved
    rw [initializeOwners_getElem isOwner] at moved
    exact absurd rfl moved
  bound := by
    intro index owner isOwner known
    rw [initializeOwners_getElem isOwner] at known
    exact absurd rfl known

/-- At first every assignment of initial owners is a model. -/
theorem initializeOwners_models (table : SourceTable source scratch) (holders : Holders) :
    scratch.initializeOwners.Models source holders ↔
      ∀ key, source.transfers key = false → holders key = key.role := by
  constructor
  · intro isModel key notTransferred
    exact isModel.static key ((table.static_iff key).mpr notTransferred)
  · intro static
    refine ⟨fun index owner isOwner => ?_, fun key notDelegated =>
      static key ((table.static_iff key).mp notDelegated)⟩
    rw [initializeOwners_getElem isOwner]
    exact ⟨rfl, by rintro _ _ ⟨⟩⟩

/-! ### The solved assignment -/

/-- The solved initial owners, with a default for a class without an actor. -/
def solution (scratch : Scratch) (default : UInt8) : Holders := fun key =>
  match symbolIndex scratch.symbols key with
  | none => key.role
  | some index =>
    match scratch.symbols[index]?.map Symbol.kind, scratch.resolve (.initial index) with
    | some .delegated, .ok actor => actor.getD default
    | _, _ => key.role

variable {source : Source}

/-- The class of a delegated endpoint has the actor of its root. -/
theorem Valid.resolve_ok (valid : scratch.Valid source)
    (delegated : DelegatedAt scratch.symbols index) :
    ∃ actor, scratch.resolve (.initial index) = .ok actor ∧
      ∀ holders, scratch.Models source holders → ∀ known, actor = some known →
        holderAt scratch.symbols holders index = some known := by
  obtain ⟨top, owner, isTop, isOwner, isRoot, _, classHolder⟩ := valid.root_ok delegated
  refine ⟨owner.actor, by simp [resolve, isTop, isOwner], ?_⟩
  intro holders isModel known isKnown
  rw [classHolder holders isModel]
  exact isModel.holderAt_eq isOwner isRoot isKnown

theorem holderAt_solution (valid : scratch.Valid source) (default : UInt8)
    (isSymbol : scratch.symbols[index]? = some symbol) (kind : symbol.kind = .delegated)
    {actor : Option UInt8} (isActor : scratch.resolve (.initial index) = .ok actor) :
    holderAt scratch.symbols (scratch.solution default) index = some (actor.getD default) := by
  have found := symbolIndex_of_getElem valid.distinct isSymbol
  simp [holderAt, isSymbol, solution, found, kind, isActor]

/-- A step to a parent stays in the class. -/
theorem resolve_parent (valid : scratch.Valid source)
    (delegated : DelegatedAt scratch.symbols index)
    (isOwner : scratch.initial[index]? = some owner) :
    scratch.resolve (.initial owner.parent) = scratch.resolve (.initial index) := by
  by_cases same : owner.parent = index
  · rw [same]
  · obtain ⟨top, _, isTop, _⟩ := valid.root_ok delegated
    have isNext : parentOf scratch.initial index = some owner.parent := by
      rw [parentOf, isOwner]
      rfl
    have step : Forest.root (parentOf scratch.initial) scratch.initial.length owner.parent =
        .ok top := by
      rw [← Forest.root_of_parent isNext same]
      exact isTop
    have parentTop : scratch.root owner.parent = .ok top :=
      Forest.root_mono step (Nat.le_succ _)
    simp only [resolve, isTop, parentTop]

/-- A root has the actor that it stores. -/
theorem resolve_root (isOwner : scratch.initial[index]? = some owner)
    (isRoot : owner.parent = index) : scratch.resolve (.initial index) = .ok owner.actor := by
  have isParent : parentOf scratch.initial index = some index := by
    rw [parentOf, isOwner]
    exact congrArg some isRoot
  have ownRoot : scratch.root index = .ok index := Forest.root_of_parent_self isParent _
  simp [resolve, ownRoot, isOwner]

theorem solution_satisfies (valid : scratch.Valid source) (default : UInt8) :
    Satisfies scratch.symbols scratch.initial (scratch.solution default) := by
  intro index owner isOwner
  by_cases delegated : DelegatedAt scratch.symbols index
  · obtain ⟨actor, isActor, _⟩ := valid.resolve_ok delegated
    have parentActor := (resolve_parent valid delegated isOwner).trans isActor
    have parentDelegated : DelegatedAt scratch.symbols owner.parent := by
      by_cases same : owner.parent = index
      · rw [same]
        exact delegated
      · exact (valid.joined index owner isOwner same).2
    obtain ⟨symbol, isSymbol, kind⟩ := delegated
    obtain ⟨parentSymbol, isParent, parentKind⟩ := parentDelegated
    rw [holderAt_solution valid default isSymbol kind isActor,
      holderAt_solution valid default isParent parentKind parentActor]
    refine ⟨rfl, fun isRoot known isKnown => ?_⟩
    rw [resolve_root isOwner isRoot, isKnown] at isActor
    rw [← Except.ok.inj isActor, Option.getD_some]
  · refine ⟨?_, fun _ known isKnown => ?_⟩
    · by_cases same : owner.parent = index
      · rw [same]
      · exact absurd (valid.joined index owner isOwner same).1 delegated
    · have hasActor : owner.actor ≠ none := by
        rw [isKnown]
        exact Option.some_ne_none _
      exact absurd (valid.bound index owner isOwner hasActor) delegated

theorem solution_static (scratch : Scratch) (default : UInt8)
    (notDelegated : (scratch.query source).isDelegated key = false) :
    scratch.solution default key = key.role := by
  have notDelegated : ((symbolIndex scratch.symbols key).bind (scratch.symbols[·]?)).any
      (fun symbol => symbol.kind = .delegated) = false := by
    rw [← notDelegated]
    exact (Query.isDelegated_eq (scratch.query source) key).symm
  unfold solution
  cases found : symbolIndex scratch.symbols key with
  | none => rfl
  | some index =>
    obtain ⟨symbol, isSymbol, _⟩ := symbolIndex_spec found
    simp only [found, Option.bind_some, isSymbol, Option.any_some, decide_eq_false_iff_not]
      at notDelegated
    cases kind : symbol.kind with
    | delegated => exact absurd kind notDelegated
    | control => simp [isSymbol, kind]

/-- Whatever the default, the solved owners are a model of the scratch. -/
theorem solution_models (valid : scratch.Valid source) (default : UInt8) :
    scratch.Models source (scratch.solution default) :=
  ⟨solution_satisfies valid default, fun _ => solution_static scratch default⟩

/-- Every delegated endpoint of the table has an actor. -/
def Rooted (scratch : Scratch) : Prop :=
  ∀ index, DelegatedAt scratch.symbols index →
    ∃ actor, scratch.resolve (.initial index) = .ok (some actor)

/-- The search over a suffix of the table finds an endpoint without an actor, if there is one. -/
theorem firstUnrooted_spec (valid : scratch.Valid source) {done rest : List Symbol}
    (split : scratch.symbols = done ++ rest) :
    ∃ answer, scratch.firstUnrooted rest done.length = .ok answer ∧
      (answer = none → ∀ index, done.length ≤ index → DelegatedAt scratch.symbols index →
        ∃ actor, scratch.resolve (.initial index) = .ok (some actor)) ∧
      (answer ≠ none → ¬ scratch.Rooted) := by
  induction rest generalizing done with
  | nil =>
    refine ⟨none, rfl, ?_, fun found => absurd rfl found⟩
    rintro _ index behind ⟨symbol, isSymbol, _⟩
    have inside := (List.getElem?_eq_some_iff.mp isSymbol).1
    rw [split, append_nil] at inside
    omega
  | cons symbol rest hyp =>
    have atDone : scratch.symbols[done.length]? = some symbol := by
      rw [split, getElem?_append_right le_rfl, Nat.sub_self, getElem?_cons_zero]
    have splitNext : scratch.symbols = (done ++ [symbol]) ++ rest := by
      rw [split, append_assoc]
      rfl
    obtain ⟨answer, isAnswer, noneSpec, someSpec⟩ := hyp splitNext
    rw [length_append, length_singleton] at isAnswer noneSpec
    -- The other positions are those of the rest of the search.
    have extend : answer = none → (DelegatedAt scratch.symbols done.length →
          ∃ actor, scratch.resolve (.initial done.length) = .ok (some actor)) →
        ∀ index, done.length ≤ index → DelegatedAt scratch.symbols index →
          ∃ actor, scratch.resolve (.initial index) = .ok (some actor) := by
      intro isNone here index behind delegated
      rcases Nat.eq_or_lt_of_le behind with rfl | later
      · exact here delegated
      · exact noneSpec isNone index later delegated
    cases kind : symbol.kind with
    | control =>
      refine ⟨answer, by simp only [firstUnrooted, kind, isAnswer], ?_, someSpec⟩
      intro isNone
      refine extend isNone fun delegated => ?_
      obtain ⟨other, isOther, isDelegated⟩ := delegated
      rw [atDone] at isOther
      cases isOther
      rw [kind] at isDelegated
      cases isDelegated
    | delegated =>
      have delegated : DelegatedAt scratch.symbols done.length := ⟨symbol, atDone, kind⟩
      obtain ⟨actor, isActor, _⟩ := valid.resolve_ok delegated
      cases actor with
      | none =>
        refine ⟨some symbol.key, by simp [firstUnrooted, kind, isActor],
          fun isNone => (by cases isNone), fun _ rooted => ?_⟩
        obtain ⟨held, isHeld⟩ := rooted done.length delegated
        rw [isActor] at isHeld
        cases isHeld
      | some held =>
        refine ⟨answer, by simp [firstUnrooted, kind, isActor, isAnswer], ?_, someSpec⟩
        intro isNone
        exact extend isNone fun _ => ⟨held, isActor⟩

/-- The scratch is rooted exactly when it has one model. -/
theorem rooted_iff_existsUnique (valid : scratch.Valid source) :
    scratch.Rooted ↔ ∃! holders, scratch.Models source holders := by
  constructor
  · intro rooted
    refine ⟨scratch.solution 0, solution_models valid 0, fun holders isModel => ?_⟩
    funext key
    cases delegated : (scratch.query source).isDelegated key with
    | false => rw [isModel.static key delegated, solution_static scratch 0 delegated]
    | true =>
      obtain ⟨index, symbol, isIndex, isSymbol, kind⟩ := Query.symbolIndex_of_isDelegated delegated
      have isDelegated : DelegatedAt scratch.symbols index := ⟨symbol, isSymbol, kind⟩
      obtain ⟨actor, isActor⟩ := rooted index isDelegated
      obtain ⟨known, isKnown, inModels⟩ := valid.resolve_ok isDelegated
      rw [isActor] at isKnown
      have inModel := inModels holders isModel actor (Except.ok.inj isKnown).symm
      have inSolution := inModels _ (solution_models valid 0) actor (Except.ok.inj isKnown).symm
      have found : symbolIndex scratch.symbols key = some index := isIndex
      rw [holderAt_of_symbolIndex found] at inModel inSolution
      rw [Option.some.inj inModel, Option.some.inj inSolution]
  · rintro ⟨holders, _, unique⟩ index delegated
    obtain ⟨actor, isActor, _⟩ := valid.resolve_ok delegated
    cases actor with
    | some actor => exact ⟨actor, isActor⟩
    | none =>
      -- A class without an actor could be owned by actor 0 and by actor 1.
      obtain ⟨symbol, isSymbol, kind⟩ := delegated
      have zero := holderAt_solution valid 0 isSymbol kind isActor
      have one := holderAt_solution valid 1 isSymbol kind isActor
      rw [unique _ (solution_models valid 0)] at zero
      rw [unique _ (solution_models valid 1), zero] at one
      cases one

end Scratch

/-! ### Validation -/

/-- The source fits the capacities of the scratch. -/
structure FitsScratch (symbolCapacity eventCapacity : Nat) (source : Source) : Prop where
  symbolsSmall : symbolCapacity ≤ 65535
  eventsSmall : eventCapacity ≤ 65535
  events : source.eventCount ≤ eventCapacity
  symbols : source.endpointKeys.toFinset.card ≤ symbolCapacity

theorem Source.mem_endpointKeys_iff (source : Source) (key : EndpointKey) :
    key ∈ source.endpointKeys ↔ source.uses key = true := by
  rw [Source.uses_iff, Source.endpointKeys, mem_flatMap]
  refine exists_congr fun message => and_congr_right fun _ => ?_
  unfold Message.keys
  cases payload : message.payload with
  | wire schema => simp [eq_comm]
  | endpoint carried => simp [eq_comm]

variable {symbolCapacity eventCapacity : Nat} {source : Source} {scratch : Scratch}

theorem FitsScratch.room (fits : FitsScratch symbolCapacity eventCapacity source) :
    Scratch.Room symbolCapacity fun key => source.uses key = true where
  small := fits.symbolsSmall
  enough := by
    intro keys distinct inside
    calc keys.length = keys.toFinset.card := (toFinset_card_of_nodup distinct).symm
      _ ≤ source.endpointKeys.toFinset.card := by
          refine Finset.card_le_card fun key mem => ?_
          rw [mem_toFinset] at mem ⊢
          exact (source.mem_endpointKeys_iff key).mpr (inside key mem)
      _ ≤ symbolCapacity := fits.symbols

/-- What the whole walk of validation decides. -/
def Source.Conforms (source : Source) (initial : Holders) : Prop :=
  source.MessagesWellFormed ∧ source.ParallelSeparated ∧ source.SolvesOwnership initial

/-- A source whose endpoints have been collected fits. -/
theorem fits_of_validate (isOk : validate symbolCapacity eventCapacity source = .ok scratch) :
    FitsScratch symbolCapacity eventCapacity source := by
  unfold validate at isOk
  split at isOk
  · cases isOk
  · rename_i capacities
    rcases Scratch.collect_empty symbolCapacity source with
      ⟨symbols, _, table, small⟩ | ⟨_, error, refused⟩
    · refine ⟨by omega, by omega, by omega, ?_⟩
      calc source.endpointKeys.toFinset.card ≤ (symbols.map Symbol.key).toFinset.card := by
            refine Finset.card_le_card fun key mem => ?_
            rw [mem_toFinset] at mem ⊢
            exact (table.keys key).mpr ((source.mem_endpointKeys_iff key).mp mem)
        _ ≤ (symbols.map Symbol.key).length := toFinset_card_le _
        _ ≤ symbolCapacity := by
            rw [length_map]
            exact small
    · rw [refused] at isOk
      cases isOk

/-- Within the capacities validation reaches the last check with a scratch whose models are the
conforming assignments, or refuses because there are none. -/
theorem validate_walk (fits : FitsScratch symbolCapacity eventCapacity source) :
    (∃ scratch, scratch.Valid source ∧ Scratch.SourceTable source scratch ∧
        scratch.events = source.messages ∧
        (∀ holders, scratch.Models source holders ↔ source.Conforms holders) ∧
        validate symbolCapacity eventCapacity source =
          (scratch.firstUnrooted scratch.symbols 0).checked >>= fun unrooted =>
            match unrooted with
            | some key => refuse ⟨.unrootedInitialOwner, some key⟩
            | none => .ok scratch) ∨
      ((∀ holders, ¬ source.Conforms holders) ∧
        ∃ error, validate symbolCapacity eventCapacity source = refuse error) := by
  have capacities : ¬ (65535 < symbolCapacity ∨ 65535 < eventCapacity ∨
      eventCapacity < source.eventCount) := by
    have symbolsSmall := fits.symbolsSmall
    have eventsSmall := fits.eventsSmall
    have events := fits.events
    omega
  obtain ⟨symbols, isCollected, table, _⟩ :=
    (Scratch.collect_empty symbolCapacity source).resolve_right fun noRoom => noRoom.1 fits.room
  have sourceTable : Scratch.SourceTable source { Scratch.empty with symbols := symbols } := table
  have valid := Scratch.initializeOwners_valid sourceTable
  have walk := Scratch.visit_adds eventCapacity source source (Context.new []) 0
    (Scratch.initializeOwners { Scratch.empty with symbols := symbols }) (Located.of_root source)
    valid rfl (by rw [Nat.zero_add]; exact fits.events)
  have conforms : ∀ holders, source.Conforms holders ↔
      (Scratch.initializeOwners { Scratch.empty with symbols := symbols }).Models source holders ∧
        Scratch.Conforms source (Context.new []) source 0 holders := by
    intro holders
    rw [Scratch.initializeOwners_models sourceTable]
    constructor
    · rintro ⟨messages, separated, static, consistent⟩
      exact ⟨static, messages, separated, fun env _ => consistent env⟩
    · rintro ⟨static, messages, separated, consistent⟩
      refine ⟨messages, separated, static, fun env => consistent env ?_⟩
      rintro scope arm ⟨⟩
  have unfolded : validate symbolCapacity eventCapacity source =
      (Scratch.initializeOwners { Scratch.empty with symbols := symbols }).visit eventCapacity
        source source (Context.new []) >>= fun scratch =>
          (scratch.firstUnrooted scratch.symbols 0).checked >>= fun unrooted =>
            match unrooted with
            | some key => refuse ⟨.unrootedInitialOwner, some key⟩
            | none => .ok scratch := by
    unfold validate
    rw [if_neg capacities, isCollected]
    rfl
  rw [unfolded]
  cases outcome : (Scratch.initializeOwners { Scratch.empty with symbols := symbols }).visit
      eventCapacity source source (Context.new []) with
  | ok scratch =>
    rw [outcome] at walk
    obtain ⟨⟨reachedValid, sameSymbols, events⟩, refined⟩ := walk
    refine .inl ⟨scratch, reachedValid, ?_, events, fun holders => ?_, rfl⟩
    · unfold Scratch.SourceTable
      rw [sameSymbols]
      exact table
    · rw [refined holders, conforms holders]
  | error failure =>
    rw [outcome] at walk
    cases failure with
    | fault fault => exact walk.elim
    | refused error =>
      refine .inr ⟨fun holders isConforming => ?_, error, rfl⟩
      obtain ⟨isModel, holds⟩ := (conforms holders).mp isConforming
      exact walk holders isModel holds

/-- The scratch of an accepted source: its models are the conforming assignments, and every
delegated endpoint has an actor. -/
structure Accepted (source : Source) (scratch : Scratch) : Prop where
  valid : scratch.Valid source
  table : Scratch.SourceTable source scratch
  events : scratch.events = source.messages
  models : ∀ holders, scratch.Models source holders ↔ source.Conforms holders
  rooted : scratch.Rooted

/-- Validation returns a scratch exactly when one assignment of initial owners conforms, and
refuses otherwise. -/
theorem validate_spec (fits : FitsScratch symbolCapacity eventCapacity source) :
    (∃ scratch, validate symbolCapacity eventCapacity source = .ok scratch ∧
        Accepted source scratch) ∨
      ((¬ ∃! holders, source.Conforms holders) ∧
        ∃ error, validate symbolCapacity eventCapacity source = refuse error) := by
  rcases validate_walk fits with
    ⟨scratch, valid, table, events, models, isResult⟩ | ⟨impossible, refused⟩
  · have split : scratch.symbols = [] ++ scratch.symbols := rfl
    obtain ⟨answer, isAnswer, noneSpec, someSpec⟩ := Scratch.firstUnrooted_spec valid split
    rw [length_nil] at isAnswer noneSpec
    rw [isAnswer, Run.checked_ok, Run.bind_ok] at isResult
    have unique := Scratch.rooted_iff_existsUnique valid
    cases answer with
    | none =>
      refine .inl ⟨scratch, isResult, valid, table, events, models, ?_⟩
      exact fun index => noneSpec rfl index (Nat.zero_le _)
    | some key =>
      refine .inr ⟨fun exactlyOne => ?_, _, isResult⟩
      simp only [← models] at exactlyOne
      exact someSpec (Option.some_ne_none _) (unique.mpr exactlyOne)
  · exact .inr ⟨fun exactlyOne => impossible _ exactlyOne.exists.choose_spec, refused⟩

theorem accepted_of_validate (isOk : validate symbolCapacity eventCapacity source = .ok scratch) :
    Accepted source scratch := by
  rcases validate_spec (fits_of_validate isOk) with ⟨found, isFound, accepted⟩ |
    ⟨_, error, isRefused⟩
  · rw [isOk] at isFound
    rw [Except.ok.inj isFound]
    exact accepted
  · rw [isOk] at isRefused
    cases isRefused

/-- One conforming assignment is one solution of a well-shaped source. -/
theorem existsUnique_conforms_iff (source : Source) :
    (∃! holders, source.Conforms holders) ↔ source.MessagesWellFormed ∧
      source.ParallelSeparated ∧ ∃! initial, source.SolvesOwnership initial := by
  constructor
  · rintro ⟨holders, ⟨messages, separated, solves⟩, unique⟩
    exact ⟨messages, separated, holders, solves, fun other isOther =>
      unique other ⟨messages, separated, isOther⟩⟩
  · rintro ⟨messages, separated, initial, solves, unique⟩
    exact ⟨initial, ⟨messages, separated, solves⟩, fun other isOther => unique other isOther.2.2⟩

/-- The solved owner of a delegated endpoint is its owner in every conforming assignment. -/
theorem Accepted.resolve_eq (accepted : Accepted source scratch) {initial : Holders}
    (conforms : source.Conforms initial) {key : EndpointKey}
    (transferred : source.transfers key = true) :
    ∃ index, symbolIndex scratch.symbols key = some index ∧
      scratch.resolve (.initial index) = .ok (some (initial key)) := by
  have delegated := (accepted.table.isDelegated_iff key).mpr transferred
  obtain ⟨index, symbol, isIndex, isSymbol, kind⟩ := Query.symbolIndex_of_isDelegated delegated
  have isDelegated : Scratch.DelegatedAt scratch.symbols index := ⟨symbol, isSymbol, kind⟩
  obtain ⟨actor, isActor⟩ := accepted.rooted index isDelegated
  obtain ⟨known, isKnown, inModels⟩ := accepted.valid.resolve_ok isDelegated
  rw [isActor] at isKnown
  have held := inModels initial ((accepted.models initial).mpr conforms) actor
    (Except.ok.inj isKnown).symm
  have found : symbolIndex scratch.symbols key = some index := isIndex
  rw [holderAt_of_symbolIndex found] at held
  rw [Option.some.inj held]
  exact ⟨index, found, isActor⟩

/-- Within the capacities validation returns or refuses. It returns exactly when the messages are
well formed, parallel arms are separated and one assignment of initial owners is consistent on
every complete route assignment; the solved owners are then that assignment. -/
theorem validate_ok_iff (symbolCapacity eventCapacity : Nat) (source : Source)
    (fits : FitsScratch symbolCapacity eventCapacity source) :
    ((∃ scratch, validate symbolCapacity eventCapacity source = .ok scratch) ∨
      ∃ error, validate symbolCapacity eventCapacity source = refuse error) ∧
    ((∃ scratch, validate symbolCapacity eventCapacity source = .ok scratch) ↔
      source.MessagesWellFormed ∧ source.ParallelSeparated ∧
        ∃! initial, source.SolvesOwnership initial) ∧
    ∀ scratch, validate symbolCapacity eventCapacity source = .ok scratch →
      ∀ initial, source.SolvesOwnership initial → ∀ key, source.transfers key = true →
        ∃ index, symbolIndex scratch.symbols key = some index ∧
          scratch.resolve (.initial index) = .ok (some (initial key)) := by
  rw [← existsUnique_conforms_iff]
  rcases validate_spec fits with ⟨scratch, isOk, accepted⟩ | ⟨notUnique, error, isRefused⟩
  · have unique := (Scratch.rooted_iff_existsUnique accepted.valid).mp accepted.rooted
    simp only [accepted.models] at unique
    refine ⟨.inl ⟨scratch, isOk⟩, ⟨fun _ => unique, fun _ => ⟨scratch, isOk⟩⟩, ?_⟩
    intro found isFound initial solves key transferred
    rw [isOk] at isFound
    cases isFound
    obtain ⟨messages, separated, _⟩ := unique.exists.choose_spec
    exact accepted.resolve_eq ⟨messages, separated, solves⟩ transferred
  · refine ⟨.inr ⟨error, isRefused⟩, ⟨?_, fun exactlyOne => absurd exactlyOne notUnique⟩, ?_⟩
    · rintro ⟨scratch, isOk⟩
      rw [isRefused] at isOk
      cases isOk
    · intro scratch isOk
      rw [isRefused] at isOk
      cases isOk

/-- Role 0 hands endpoint 5 to role 1 or to role 2, and its holder then sends to role 3. -/
def branchHandover : Source :=
  .seq (.route (.send ⟨⟨0, 0⟩, ⟨0, 1⟩, 0, .endpoint ⟨0, 5⟩⟩)
      (.send ⟨⟨0, 0⟩, ⟨0, 2⟩, 1, .endpoint ⟨0, 5⟩⟩) none)
    (.send ⟨⟨0, 5⟩, ⟨0, 3⟩, 2, .wire 0⟩)

theorem branchHandover_validated :
    FitsScratch 5 3 branchHandover ∧ branchHandover.MessagesWellFormed ∧
      branchHandover.ParallelSeparated ∧ ∃! initial, branchHandover.SolvesOwnership initial := by
  have fits : FitsScratch 5 3 branchHandover := ⟨by decide, by decide, by decide, by decide⟩
  exact ⟨fits, (validate_ok_iff 5 3 branchHandover fits).2.1.mp ⟨_, rfl⟩⟩

/-- A role sends itself a value that is not the unit value. -/
def selfMessage : Source :=
  .send ⟨⟨0, 0⟩, ⟨0, 0⟩, 0, .wire 1⟩

/-- A message whose own endpoints are not its payload. -/
def Message.CarriesOther (message : Message) : Prop :=
  (message.fromKey = message.toKey → ∀ key, message.payload ≠ .endpoint key) ∧
    ∀ key, message.payload = .endpoint key → key ≠ message.fromKey ∧ key ≠ message.toKey

/-- Validation refuses a self-message that carries no endpoint but a value: its self-messages
must carry the unit value. -/
theorem selfMessage_refused :
    FitsScratch 1 1 selfMessage ∧ (∀ message ∈ selfMessage.messages, message.CarriesOther) ∧
      selfMessage.ParallelSeparated ∧ (∃! initial, selfMessage.SolvesOwnership initial) ∧
      validate 1 1 selfMessage = refuse ⟨.nonUnitSelfMessage, some ⟨0, 0⟩⟩ := by
  refine ⟨⟨by decide, by decide, by decide, by decide⟩, ?_, trivial, ?_, rfl⟩
  · intro message mem
    rw [mem_singleton.mp mem]
    refine ⟨fun _ key => ?_, fun key carried => ?_⟩
    · rintro ⟨⟩
    · cases carried
  · refine ⟨fun key => key.role, ⟨fun key _ => rfl, ?_⟩, fun initial solves => ?_⟩
    · rintro assignment key ⟨⟩
    · funext key
      refine solves.static key ?_
      rw [← Bool.not_eq_true, Source.transfers_iff]
      rintro ⟨message, mem, carried⟩
      rw [mem_singleton.mp mem] at carried
      cases carried

end Hibana
