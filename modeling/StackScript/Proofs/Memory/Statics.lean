import Mathlib.Tactic.Common
import StackScript.Proofs.Memory.Mirrors

/-!
# What accesses to static fields meet

The static fields of a type are known by its key, and by their context if they belong to one. What
an access meets changes twice at most: the first access marks the fields, and their initializer
leaves its outcome behind. Both change nothing else, and fields that have a number keep it.

What an initializer does to the static fields that all contexts share is a list of stores. Stores to
the fields of one type leave those of the other types alone, and the states of all types.

## Main definitions

* `Statics`: the static fields of a type that are initialized together
* `Memory.meets`: what an access to static fields meets
* `Memory.Becomes`: the memory with another state of some static fields
* `Fields.store`, `SharedStatics.store`: several stores, one after the other

## Main results

* `Memory.becomes_enter`, `Memory.becomes_enterStatics`: the state in which an initializer runs
* `Memory.becomes_leave`, `Memory.becomes_leaveStatics`: the state behind it
* `SharedStatics.fieldsOf_store`: the fields behind stores
* `run_ensureInitialized`: what an access comes to
-/

namespace StackScript

/-- The static fields of a type that are initialized together: those that all contexts share, or
those of one context. Types are known by their keys. -/
inductive Statics where
  | shared (type : String)
  | bound (context : ContextId) (type : String)
  deriving DecidableEq

/-- What an access meets behind an initializer. -/
def Admission.ofOutcome (outcome : Except DispatchError Unit) : Admission :=
  (InitState.ofOutcome outcome).admission

namespace Admission

theorem ofOutcome_ne_first (outcome : Except DispatchError Unit) : ofOutcome outcome ≠ .first := by
  cases outcome <;> nofun

theorem ofOutcome_inj {outcome outcome' : Except DispatchError Unit} :
    ofOutcome outcome = ofOutcome outcome' ↔ outcome = outcome' := by
  refine ⟨fun same => ?_, congrArg ofOutcome⟩
  cases outcome <;> cases outcome' <;> cases same <;> rfl

/-- What is not met first is the outcome of an initializer, or as if it had succeeded. -/
theorem exists_outcome {admission : Admission} (h : admission ≠ .first) :
    ∃ outcome, admission = .ofOutcome outcome := by
  cases admission with
  | granted => exact ⟨.ok (), rfl⟩
  | refused error => exact ⟨.error error, rfl⟩
  | first => exact (h rfl).elim

end Admission

/-! ## Fields that all contexts share -/

namespace SharedStatics

variable (shared : SharedStatics) (type other : String) (state : InitState)

/-- What an access to the fields of a type meets. -/
def meets (type : String) : Admission :=
  match shared.state? type with
  | some state => state.admission
  | none => .first

theorem state?_setState :
    (shared.setState type state).state? other =
      if type = other then some state else shared.state? other := by
  unfold state? setState
  by_cases same : type = other
  · simp [same]
  · simp only [List.find?_cons, beq_eq_false_iff_ne.mpr same, List.find?_filter, if_neg same]
    congr 2
    funext entry
    grind

theorem meets_setState :
    (shared.setState type state).meets other =
      if type = other then state.admission else shared.meets other := by
  unfold meets
  rw [state?_setState]
  by_cases same : type = other <;> simp [same]

/-- The first access marks the type; the others change nothing. -/
theorem enter_eq (typeName : String) :
    shared.enter typeName = (shared.meets (nameKey typeName),
      match shared.meets (nameKey typeName) with
      | .first => shared.setState (nameKey typeName) .running
      | _ => shared) := by
  unfold enter meets
  dsimp only
  cases shared.state? (nameKey typeName) with
  | none => rfl
  | some state => cases state <;> rfl

end SharedStatics

/-! ## Fields of a context -/

namespace Context

variable (context : Context)

/-- The number of the static fields of a type, by the key of the type. -/
def number? (type : String) : Option HolderId :=
  context.holders.findIdx? fun (other, _) => other == type

/-- What an access to the static fields of a type meets. -/
def meets (type : String) : Admission :=
  match context.number? type with
  | some id =>
    match context.holder? id with
    | some holder => holder.admission
    | none => .granted
  | none => .first

variable {context} {type other : String} {id : HolderId} {typeName : String}

theorem exists_holder (h : context.number? type = some id) :
    ∃ holder, context.holders[id]? = some (type, holder) := by
  obtain ⟨lt, same, -⟩ := Array.findIdx?_eq_some_iff_getElem.mp h
  have same : context.holders[id].1 = type := beq_iff_eq.mp same
  exact ⟨context.holders[id].2, by rw [Array.getElem?_eq_getElem lt, ← same]⟩

/-- Fields with a number have been accessed. -/
theorem meets_of_number? (h : context.number? type = some id) : context.meets type ≠ .first := by
  obtain ⟨holder, there⟩ := exists_holder h
  simp only [meets, h, holder?, there, Option.map_some, Holder.admission]
  split <;> nofun

theorem number?_of_first (h : context.meets type = .first) : context.number? type = none := by
  cases numbered : context.number? type with
  | none => rfl
  | some id => exact (meets_of_number? numbered h).elim

/-- Fields that have been accessed have a number. -/
theorem exists_number (h : context.meets type ≠ .first) : ∃ id, context.number? type = some id := by
  refine Option.isSome_iff_exists.mp (Option.isSome_iff_ne_none.mpr fun none => h ?_)
  rw [meets, none]

/-- An access to fields that have a number changes nothing. -/
theorem enterStatics_of_number? (h : context.number? (nameKey typeName) = some id) :
    context.enterStatics typeName = (context.meets (nameKey typeName), id, context) := by
  have found : context.holderId? typeName = some id := h
  obtain ⟨holder, there⟩ := exists_holder h
  have held : context.holder? id = some holder := by rw [holder?, there, Option.map_some]
  simp only [enterStatics, meets, h, found, held]

/-- The first access to fields gives them a number. -/
theorem enterStatics_of_first (h : context.meets (nameKey typeName) = .first) :
    context.enterStatics typeName = (.first, context.holders.size,
      { context with holders := context.holders.push (nameKey typeName, .new typeName) }) := by
  have found : context.holderId? typeName = none := number?_of_first h
  simp only [enterStatics, found]

theorem number?_push {holder : Holder} (fresh : context.number? type = none) (other : String) :
    number? { context with holders := context.holders.push (type, holder) } other =
      if type = other then some context.holders.size else context.number? other := by
  unfold number? at *
  simp only [Array.findIdx?_push]
  grind

theorem meets_push {holder : Holder} (fresh : context.number? type = none) (other : String) :
    meets { context with holders := context.holders.push (type, holder) } other =
      if type = other then holder.admission else context.meets other := by
  unfold meets
  rw [number?_push fresh]
  by_cases same : type = other
  · simp [same, holder?]
  · rw [if_neg same, if_neg same]
    cases h : context.number? other with
    | none => rfl
    | some id =>
      obtain ⟨lt, -⟩ := Array.findIdx?_eq_some_iff_getElem.mp h
      simp only [holder?, Array.getElem?_push_lt lt, Array.getElem?_eq_getElem lt]

theorem number?_setHolder (id : HolderId) (holder : Holder) (type : String) :
    (context.setHolder id holder).number? type = context.number? type := by
  have byKey (holders : Array (String × Holder)) : (holders.findIdx? fun (other, _) => other == type) =
      (holders.map Prod.fst).findIdx? (· == type) := by
    rw [Array.findIdx?_map]
    rfl
  have same : (context.holders.modify id fun (key, _) => (key, holder)).map Prod.fst =
      context.holders.map Prod.fst := by
    ext n hn hn' <;> grind
  unfold number? setHolder
  rw [byKey, byKey, same]

theorem meets_setHolder (h : context.number? type = some id) (holder : Holder) (other : String) :
    (context.setHolder id holder).meets other =
      if type = other then holder.admission else context.meets other := by
  unfold meets
  rw [number?_setHolder]
  obtain ⟨old, there⟩ := exists_holder h
  by_cases same : type = other
  · subst same
    simp [h, holder?, setHolder, Array.getElem?_modify, there]
  · rw [if_neg same]
    cases h' : context.number? other with
    | none => rfl
    | some id' =>
      obtain ⟨old', there'⟩ := exists_holder h'
      have apart : id ≠ id' := by
        rintro rfl
        rw [there] at there'
        cases there'
        exact same rfl
      simp [holder?, setHolder, Array.getElem?_modify, apart]

end Context

/-! ## The memory -/

namespace Memory

/-- What an access to static fields meets. -/
def meets (memory : Memory) : Statics → Admission
  | .shared type => memory.shared.meets type
  | .bound context type => (memory.context context).meets type

/-- The number of the static fields of a type in a context. -/
def number? (memory : Memory) (context : ContextId) (type : String) : Option HolderId :=
  (memory.context context).number? type

/-- The memories are alike in what accesses to static fields meet. -/
structure SameStatics (memory next : Memory) : Prop where
  meets : ∀ statics, next.meets statics = memory.meets statics
  number : ∀ context type, next.number? context type = memory.number? context type
  size : next.contexts.size = memory.contexts.size

/-- The memory with another state of some static fields. The others stay as they are, and all that
have a number keep it. -/
structure Becomes (memory : Memory) (statics : Statics) (admission : Admission) (next : Memory) :
    Prop where
  meets : ∀ other, next.meets other = if statics = other then admission else memory.meets other
  number : ∀ {context type id}, memory.number? context type = some id →
    next.number? context type = some id
  size : next.contexts.size = memory.contexts.size

variable {memory : Memory} {context other : ContextId} {typeName : String} {id : HolderId}

theorem context_setContext (there : context < memory.contexts.size) (state : Context) :
    (memory.setContext context state).context other =
      if context = other then state else memory.context other := by
  unfold Memory.context setContext
  grind

/-- The shared fields of a type in another state. -/
theorem becomes_setState (type : String) (state : InitState) :
    memory.Becomes (.shared type) state.admission
      { memory with shared := memory.shared.setState type state } where
  meets other := by
    cases other with
    | shared other =>
      simp only [meets, SharedStatics.meets_setState, Statics.shared.injEq]
    | bound => rfl
  number h := h
  size := rfl

/-- **The state in which the initializer of shared fields runs.** -/
theorem becomes_enter (memory : Memory) (typeName : String) :
    memory.Becomes (.shared (nameKey typeName)) .granted
      { memory with shared := memory.shared.setState (nameKey typeName) .running } :=
  becomes_setState _ .running

/-- The state behind it. -/
theorem becomes_leave (memory : Memory) (typeName : String) (outcome : Except DispatchError Unit) :
    memory.Becomes (.shared (nameKey typeName)) (.ofOutcome outcome)
      { memory with shared := memory.shared.leave typeName outcome } :=
  becomes_setState _ (.ofOutcome outcome)

/-- The fields of a type in a context in another state. -/
theorem becomes_setContext {state : Context} {type : String} {admission : Admission}
    (there : context < memory.contexts.size)
    (meets : ∀ other, state.meets other =
      if type = other then admission else (memory.context context).meets other)
    (number : ∀ {other id}, memory.number? context other = some id →
      state.number? other = some id) :
    memory.Becomes (.bound context type) admission (memory.setContext context state) where
  meets other := by
    cases other with
    | shared => rfl
    | bound at_ type =>
      simp only [Memory.meets, context_setContext there, Statics.bound.injEq]
      split
      · subst_vars
        simp only [meets, true_and]
      · rename_i apart
        rw [if_neg fun both => apart both.1]
  number {at_ type id} h := by
    unfold Memory.number? at *
    rw [context_setContext there]
    split
    · subst_vars
      exact number h
    · exact h
  size := by simp [setContext]

/-- **The state in which the initializer of a context's fields runs.** -/
theorem becomes_enterStatics (there : context < memory.contexts.size)
    (first : memory.meets (.bound context (nameKey typeName)) = .first) :
    memory.Becomes (.bound context (nameKey typeName)) .granted
      (memory.setContext context ((memory.context context).enterStatics typeName).2.2) := by
  have fresh := Context.number?_of_first first
  rw [Context.enterStatics_of_first first]
  refine becomes_setContext there (Context.meets_push fresh) fun {other id} h => ?_
  rw [Context.number?_push fresh, if_neg]
  · exact h
  · rintro rfl
    unfold number? at h
    rw [fresh] at h
    cases h

/-- In it the fields have their number. -/
theorem number?_enterStatics (there : context < memory.contexts.size)
    (first : memory.meets (.bound context (nameKey typeName)) = .first) :
    (memory.setContext context ((memory.context context).enterStatics typeName).2.2).number?
        context (nameKey typeName) =
      some ((memory.context context).enterStatics typeName).2.1 := by
  rw [number?, context_setContext there, if_pos rfl, Context.enterStatics_of_first first]
  exact (Context.number?_push (Context.number?_of_first first) _).trans (if_pos rfl)

/-- **The state behind it.** -/
theorem becomes_leaveStatics (outcome : Except DispatchError Unit)
    (there : context < memory.contexts.size)
    (numbered : memory.number? context (nameKey typeName) = some id)
    (granted : memory.meets (.bound context (nameKey typeName)) = .granted) :
    memory.Becomes (.bound context (nameKey typeName)) (.ofOutcome outcome)
      (memory.setContext context ((memory.context context).leaveStatics id outcome)) := by
  obtain ⟨holder, found⟩ := Context.exists_holder numbered
  cases outcome with
  | ok =>
    refine becomes_setContext there (fun other => ?_) fun h => h
    split
    · subst_vars
      exact granted
    · rfl
  | error error =>
    have left : (memory.context context).leaveStatics id (.error error) =
        (memory.context context).setHolder id { holder with failure := some error } := by
      simp only [Context.leaveStatics, Context.holder?, found, Option.map_some]
    rw [left]
    refine becomes_setContext there (Context.meets_setHolder numbered _) fun h => ?_
    rwa [Context.number?_setHolder]

end Memory

/-! ## Stores to fields that all contexts share -/

/-- Stores to fields, the first one first. -/
abbrev Stores := List (String × Value)

/-- The fields behind stores. -/
def Fields.store (fields : Fields) (stores : Stores) : Fields :=
  stores.foldl (fun fields (name, value) => fields.set name value) fields

namespace SharedStatics

variable (shared : SharedStatics) {typeName other : String} (field : String) (value : Value)
    (key : String)

/-- The shared static fields behind stores to the fields of a type. -/
def store (typeName : String) (stores : Stores) : SharedStatics :=
  stores.foldl (fun shared (field, value) => shared.set typeName field value) shared

@[simp] theorem store_nil : shared.store typeName [] = shared := rfl

@[simp] theorem store_cons (rest : Stores) :
    shared.store typeName ((field, value) :: rest) =
      (shared.set typeName field value).store typeName rest := rfl

/-- Types are known by their keys. -/
theorem set_congr (same : nameKey typeName = nameKey other) (field : String) (value : Value) :
    shared.set typeName field value = shared.set other field value := by
  simp only [set, fieldsOf, same]

theorem fieldsOf_congr (same : nameKey typeName = nameKey other) :
    shared.fieldsOf typeName = shared.fieldsOf other := by
  simp only [fieldsOf, same]

@[simp] theorem meets_set : (shared.set typeName field value).meets key = shared.meets key := rfl

@[simp] theorem meets_store (stores : Stores) (key : String) :
    (shared.store typeName stores).meets key = shared.meets key := by
  induction stores generalizing shared with
  | nil => rfl
  | cons first rest ih => exact ih (shared.set typeName first.1 first.2)

/-- All fields of a type, by its key. -/
def fieldsAt (key : String) : Fields :=
  match shared.fields.find? fun (other, _) => other == key with
  | some (_, fields) => fields
  | none => .empty

theorem fieldsOf_eq_fieldsAt (typeName : String) :
    shared.fieldsOf typeName = shared.fieldsAt (nameKey typeName) := rfl

theorem fieldsAt_set (typeName field : String) (value : Value) (key : String) :
    (shared.set typeName field value).fieldsAt key =
      if nameKey typeName = key then (shared.fieldsAt key).set field value
      else shared.fieldsAt key := by
  by_cases same : nameKey typeName = key
  · subst same
    rw [if_pos rfl, ← shared.fieldsOf_eq_fieldsAt]
    simp [fieldsAt, set]
  · rw [if_neg same]
    simp only [fieldsAt, set, List.find?_cons, beq_eq_false_iff_ne.mpr same, List.find?_filter]
    congr 1
    congr 1
    funext entry
    grind

theorem fieldsOf_set (typeName other field : String) (value : Value) :
    (shared.set typeName field value).fieldsOf other =
      if nameKey typeName = nameKey other then (shared.fieldsOf typeName).set field value
      else shared.fieldsOf other := by
  refine (shared.fieldsAt_set typeName field value (nameKey other)).trans ?_
  split
  · next same => rw [shared.fieldsOf_congr same]; rfl
  · rfl

/-- **The fields behind stores** to the fields of a type. -/
theorem fieldsOf_store (typeName other : String) (stores : Stores) :
    (shared.store typeName stores).fieldsOf other =
      if nameKey typeName = nameKey other then (shared.fieldsOf typeName).store stores
      else shared.fieldsOf other := by
  induction stores generalizing shared with
  | nil =>
    split
    · next same => exact shared.fieldsOf_congr same.symm
    · rfl
  | cons first rest ih =>
    refine (ih (shared.set typeName first.1 first.2)).trans ?_
    rw [fieldsOf_set, fieldsOf_set, if_pos rfl]
    split <;> rfl

theorem fieldsOf_setState (state : InitState) (other : String) :
    (shared.setState key state).fieldsOf other = shared.fieldsOf other := rfl

end SharedStatics

/-! ## Accesses -/

theorem run_getThe_bind {α : Type} (f : Memory → Run α) (memory : Memory) :
    (getThe Memory >>= f).run memory = (f memory).run memory := rfl

/-- The memory with other shared static fields. -/
def Memory.withShared (memory : Memory) (shared : SharedStatics) : Memory := { memory with shared }

/-- The static fields of a type are marked before their initializer runs. -/
def Memory.marked (memory : Memory) (typeName : String) : Memory :=
  memory.withShared (memory.shared.setState (nameKey typeName) .running)

/-- **What an access to shared static fields comes to**: the first one to what the initializer does
in the memory in which the type is marked. -/
theorem run_ensureInitialized (typeName : String) (init : Run Unit) (memory : Memory) :
    (ensureInitialized typeName init : Run Unit).run memory =
      match memory.shared.meets (nameKey typeName) with
      | .granted => some (.ok (), memory)
      | .refused error => some (.error error, memory)
      | .first => (init.run (memory.marked typeName)).map fun (outcome, after) =>
          (outcome, after.withShared (after.shared.leave typeName outcome)) := by
  have entered := memory.shared.enter_eq typeName
  rw [ensureInitialized, outcomeOf_eq_attempt, run_getThe_bind]
  dsimp only
  rw [entered]
  cases memory.shared.meets (nameKey typeName) with
  | granted => rfl
  | refused error => rfl
  | first =>
    change ((Run.attempt init).run (memory.marked typeName)).bind _ = _
    simp only [Run.attempt, ExceptT.run_mk]
    cases init.run (memory.marked typeName) with
    | none => rfl
    | some r =>
      obtain ⟨outcome, after⟩ := r
      cases outcome <;> rfl

end StackScript
