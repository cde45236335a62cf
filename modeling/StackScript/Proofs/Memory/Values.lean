import StackScript.Proofs.Memory.Statics

/-!
# The values of static fields

What is stored to a static field is what is loaded from it, until something else is stored to it. No
other field changes, and none changes when an initializer begins or ends.

## Main definitions

* `StaticField`: a static field of a running program
* `Memory.valueOf`: the value of a static field
* `Memory.SameHolders`: memories in which static fields are the same in every respect

## Main results

* `Memory.valueOf_set`, `Memory.valueOf_setStatic`: the values behind a store
-/

namespace StackScript

namespace Fields

theorem find?_insert (entries : List (String × Value)) (name other : String) (value : Value) :
    ((insert name value entries).find? fun entry => entry.1 == other).map (·.2) =
      if name = other then some value
      else (entries.find? fun entry => entry.1 == other).map (·.2) := by
  induction entries with
  | nil => by_cases same : name = other <;> simp [insert, same]
  | cons entry rest ih =>
    obtain ⟨key, old⟩ := entry
    unfold insert
    by_cases here : key = name
    · subst here
      by_cases same : key = other <;> simp [same]
    · by_cases same : key = other
      · subst same
        simp [here, Ne.symm here]
      · simp [here, same, ih]

/-- What is stored is what is read; no other field changes. -/
theorem get_set (fields : Fields) (name other : String) (value : Value) :
    (fields.set name value).get other = if name = other then value else fields.get other := by
  have found := find?_insert fields.entries name other value
  unfold get get? set
  rw [found]
  split <;> rfl

end Fields

/-- A static field of a running program: one for all contexts, or one of a context. -/
structure StaticField where
  statics : Statics
  name : String
  deriving DecidableEq

/-! ## Fields of a context -/

namespace Context

variable (context : Context) {type other field name : String} {id : HolderId} {value : Value}

/-- The value of a static field, by the key of its type. -/
def valueOf (type field : String) : Value :=
  match context.number? type with
  | some id => context.getStatic id field
  | none => .null

variable {context}

theorem valueOf_of_number? (h : context.number? type = some id) :
    context.valueOf type field = context.getStatic id field := by rw [valueOf, h]

/-- Fields of which no access was the first have no values. -/
theorem valueOf_push (fresh : context.number? type = none) (typeName : String) :
    valueOf { context with holders := context.holders.push (type, .new typeName) } other field =
      context.valueOf other field := by
  unfold valueOf
  rw [number?_push fresh]
  by_cases same : type = other
  · subst same
    rw [if_pos rfl, fresh]
    simp only [getStatic, holder?, Array.getElem?_push_size, Option.map_some]
    rfl
  · rw [if_neg same]
    cases numbered : context.number? other with
    | none => rfl
    | some id =>
      obtain ⟨lt, -⟩ := Array.findIdx?_eq_some_iff_getElem.mp numbered
      simp only [getStatic, holder?, Array.getElem?_push_lt lt, Array.getElem?_eq_getElem lt]

theorem valueOf_setHolder (numbered : context.number? type = some id) (holder : Holder) :
    (context.setHolder id holder).valueOf other field =
      if type = other then holder.fields.get field else context.valueOf other field := by
  unfold valueOf
  rw [number?_setHolder]
  obtain ⟨old, there⟩ := exists_holder numbered
  by_cases same : type = other
  · subst same
    simp [numbered, getStatic, holder?, setHolder, Array.getElem?_modify, there]
  · rw [if_neg same]
    cases numbered' : context.number? other with
    | none => rfl
    | some id' =>
      obtain ⟨old', there'⟩ := exists_holder numbered'
      have apart : id ≠ id' := by
        rintro rfl
        rw [there] at there'
        cases there'
        exact same rfl
      simp [getStatic, holder?, setHolder, Array.getElem?_modify, apart]

/-- The values behind a store. -/
theorem valueOf_setStatic (numbered : context.number? type = some id) :
    (context.setStatic id name value).valueOf other field =
      if type = other ∧ name = field then value else context.valueOf other field := by
  obtain ⟨holder, there⟩ := exists_holder numbered
  have held : context.holder? id = some holder := by rw [holder?, there, Option.map_some]
  simp only [setStatic, held]
  rw [valueOf_setHolder numbered, Fields.get_set]
  by_cases same : type = other
  · subst same
    have old : holder.fields.get field = context.valueOf type field := by
      simp only [valueOf_of_number? numbered, getStatic, held]
    simp [old]
  · simp [same]

theorem number?_setStatic (id : HolderId) (name : String) (value : Value) (type : String) :
    (context.setStatic id name value).number? type = context.number? type := by
  unfold setStatic
  split
  · exact number?_setHolder id _ type
  · rfl

theorem meets_setStatic (numbered : context.number? type = some id) (other : String) :
    (context.setStatic id name value).meets other = context.meets other := by
  obtain ⟨holder, there⟩ := exists_holder numbered
  have held : context.holder? id = some holder := by rw [holder?, there, Option.map_some]
  simp only [setStatic, held]
  rw [meets_setHolder numbered]
  split
  · next same =>
    subst same
    simp only [meets, numbered, held]
    rfl
  · rfl

/-- The end of an initializer changes no value. -/
theorem valueOf_leaveStatics (numbered : context.number? type = some id)
    (outcome : Except DispatchError Unit) :
    (context.leaveStatics id outcome).valueOf other field = context.valueOf other field := by
  obtain ⟨holder, there⟩ := exists_holder numbered
  have held : context.holder? id = some holder := by rw [holder?, there, Option.map_some]
  cases outcome with
  | ok => rfl
  | error error =>
    simp only [leaveStatics, held]
    rw [valueOf_setHolder numbered]
    split
    · next same =>
      subst same
      simp only [valueOf_of_number? numbered, getStatic, held]
    · rfl

end Context

/-! ## The memory -/

namespace Memory

/-- The value of a static field. -/
def valueOf (memory : Memory) (field : StaticField) : Value :=
  match field.statics with
  | .shared type => (memory.shared.fieldsAt type).get field.name
  | .bound context type => (memory.context context).valueOf type field.name

variable {memory : Memory} {context : ContextId} {typeName name : String} {id : HolderId}
  {value : Value}

/-- **The values behind a store** to a field that all contexts share. -/
theorem valueOf_set (field : StaticField) :
    valueOf { memory with shared := memory.shared.set typeName name value } field =
      if ⟨.shared (nameKey typeName), name⟩ = field then value else memory.valueOf field := by
  obtain ⟨statics, other⟩ := field
  cases statics with
  | bound => rfl
  | shared type =>
    simp only [valueOf, SharedStatics.fieldsAt_set, StaticField.mk.injEq, Statics.shared.injEq]
    by_cases same : nameKey typeName = type
    · simp [same, Fields.get_set]
    · simp [same]

theorem sameStatics_set (memory : Memory) (typeName name : String) (value : Value) :
    memory.SameStatics { memory with shared := memory.shared.set typeName name value } where
  meets statics := by
    cases statics with
    | shared type => exact SharedStatics.meets_set memory.shared name value type
    | bound => rfl
  number _ _ := rfl
  size := rfl

/-- A context in another state. -/
theorem valueOf_setContext (there : context < memory.contexts.size) (state : Context)
    (field : StaticField) :
    (memory.setContext context state).valueOf field =
      match field.statics with
      | .shared _ => memory.valueOf field
      | .bound other type =>
        if context = other then state.valueOf type field.name else memory.valueOf field := by
  obtain ⟨statics, name⟩ := field
  cases statics with
  | shared => rfl
  | bound other type =>
    simp only [valueOf, context_setContext there]
    split <;> rfl

/-- **The values behind a store** to a field of a context. -/
theorem valueOf_setStatic (there : context < memory.contexts.size)
    (numbered : memory.number? context (nameKey typeName) = some id) (field : StaticField) :
    (memory.setContext context ((memory.context context).setStatic id name value)).valueOf field =
      if ⟨.bound context (nameKey typeName), name⟩ = field then value
      else memory.valueOf field := by
  rw [valueOf_setContext there]
  obtain ⟨statics, other⟩ := field
  cases statics with
  | shared => rfl
  | bound at_ type =>
    simp only [Context.valueOf_setStatic numbered, StaticField.mk.injEq, Statics.bound.injEq]
    by_cases same : context = at_
    · subst same
      simp only [valueOf, true_and, if_true]
    · simp [same]

theorem sameStatics_setStatic (there : context < memory.contexts.size)
    (numbered : memory.number? context (nameKey typeName) = some id) (name : String)
    (value : Value) : memory.SameStatics
      (memory.setContext context ((memory.context context).setStatic id name value)) where
  meets statics := by
    cases statics with
    | shared => rfl
    | bound other type =>
      simp only [meets, context_setContext there]
      split
      · next here => rw [Context.meets_setStatic numbered, here]
      · rfl
  number other type := by
    simp only [number?, context_setContext there]
    split
    · next here => rw [Context.number?_setStatic, here]
    · rfl
  size := by simp [setContext]

/-- A state of a context with the same values changes none. -/
theorem valueOf_setContext_same (there : context < memory.contexts.size) {state : Context}
    (same : ∀ type name, state.valueOf type name = (memory.context context).valueOf type name)
    (field : StaticField) : (memory.setContext context state).valueOf field = memory.valueOf field := by
  rw [valueOf_setContext there]
  obtain ⟨statics, name⟩ := field
  cases statics with
  | shared => rfl
  | bound other type =>
    dsimp only
    split
    · next here => rw [same, valueOf, here]
    · rfl

/-- Static fields are the same in every respect. -/
structure SameHolders (memory next : Memory) : Prop where
  shared : next.shared = memory.shared
  holders : ∀ id, (next.context id).holders = (memory.context id).holders
  size : next.contexts.size = memory.contexts.size

namespace SameHolders

variable {next after : Memory}

theorem refl (memory : Memory) : memory.SameHolders memory := ⟨rfl, fun _ => rfl, rfl⟩

theorem trans (h : memory.SameHolders next) (h' : next.SameHolders after) :
    memory.SameHolders after :=
  ⟨h'.shared.trans h.shared, fun id => (h'.holders id).trans (h.holders id), h'.size.trans h.size⟩

theorem same (h : memory.SameHolders next) : memory.SameStatics next where
  meets statics := by
    cases statics with
    | shared => simp only [meets, h.shared]
    | bound context type =>
      simp only [meets, Context.meets, Context.number?, Context.holder?, h.holders]
  number context type := by simp only [number?, Context.number?, h.holders]
  size := h.size

theorem valueOf (h : memory.SameHolders next) (field : StaticField) :
    next.valueOf field = memory.valueOf field := by
  obtain ⟨statics, name⟩ := field
  cases statics with
  | shared => simp only [Memory.valueOf, h.shared]
  | bound context type =>
    simp only [Memory.valueOf, Context.valueOf, Context.number?, Context.getStatic, Context.holder?,
      h.holders]

end SameHolders

end Memory

end StackScript
