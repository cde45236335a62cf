import StackScript.Dispatch.Error
import StackScript.Name

/-!
# Static fields

A static field belongs to all contexts of a program or to one context. Either way its type is
initialized by the first access, which marks the type before the initializer runs. An initializer
that reads its own fields therefore finds them empty, and one that fails is not run again: its
error is the answer to every later access.

## Main definitions

* `Fields`: values by name; a name without a value reads as null
* `Admission`: what an access meets
* `Holder`: the static fields of a type in one context
* `SharedStatics`: the static fields that all contexts share
* `SharedStatics.enter`, `SharedStatics.leave`: an access before and after the initializer
-/

namespace StackScript

/-- Values by name, case and all. Each name occurs once. -/
structure Fields where
  entries : List (String × Value)

namespace Fields

def empty : Fields := ⟨[]⟩

def get? (fields : Fields) (name : String) : Option Value :=
  (fields.entries.find? fun (other, _) => other == name).map (·.2)

/-- The value of a name, null if it has none. -/
def get (fields : Fields) (name : String) : Value := (fields.get? name).getD .null

def has (fields : Fields) (name : String) : Bool := (fields.get? name).isSome

/-- A list of named values with one more, in place of an older value of the name. -/
def insert (name : String) (value : Value) : List (String × Value) → List (String × Value)
  | [] => [(name, value)]
  | (other, old) :: rest =>
    if other == name then (name, value) :: rest else (other, old) :: insert name value rest

def set (fields : Fields) (name : String) (value : Value) : Fields :=
  ⟨insert name value fields.entries⟩

end Fields

/-- What an access to a type's static fields meets. -/
inductive Admission where
  /-- The fields are there, or their initializer is running. -/
  | granted
  /-- The initializer has failed. -/
  | refused (error : DispatchError)
  /-- This access is the first one and has to run the initializer. -/
  | first

/-- The static fields of a type in one context. -/
structure Holder where
  /-- The name of the type as the first access spelled it. -/
  typeName : String
  fields : Fields
  /-- The error of the initializer. -/
  failure : Option DispatchError

namespace Holder

/-- The fields before the initializer runs. -/
def new (typeName : String) : Holder := ⟨typeName, .empty, none⟩

/-- What an access to existing fields meets. -/
def admission (holder : Holder) : Admission :=
  match holder.failure with
  | some error => .refused error
  | none => .granted

end Holder

/-- How far the initialization of a type has come. -/
inductive InitState where
  | running
  | done
  | failed (error : DispatchError)

namespace InitState

/-- What an access meets in a state. -/
def admission : InitState → Admission
  | .failed error => .refused error
  | .running => .granted
  | .done => .granted

/-- The state behind an initializer. -/
def ofOutcome : Except DispatchError Unit → InitState
  | .ok () => .done
  | .error error => .failed error

end InitState

/-- The static fields that all contexts share, and the state of each type that was accessed. Types
are known by their keys. -/
structure SharedStatics where
  fields : List (String × Fields)
  states : List (String × InitState)

namespace SharedStatics

/-- Nothing was accessed yet. -/
def empty : SharedStatics := ⟨[], []⟩

/-- The state of a type by its key. -/
def state? (shared : SharedStatics) (key : String) : Option InitState :=
  (shared.states.find? fun (other, _) => other == key).map (·.2)

/-- The state of a type, replaced. -/
def setState (shared : SharedStatics) (key : String) (state : InitState) : SharedStatics :=
  { shared with states := (key, state) :: shared.states.filter fun (other, _) => other != key }

/-- An access to a type: what it meets, and the state in which an initializer runs. -/
def enter (shared : SharedStatics) (typeName : String) : Admission × SharedStatics :=
  let key := nameKey typeName
  match shared.state? key with
  | some state => (state.admission, shared)
  | none => (.first, shared.setState key .running)

/-- The state after the initializer of a type. -/
def leave (shared : SharedStatics) (typeName : String) (outcome : Except DispatchError Unit) :
    SharedStatics :=
  shared.setState (nameKey typeName) (.ofOutcome outcome)

/-- All fields of a type. -/
def fieldsOf (shared : SharedStatics) (typeName : String) : Fields :=
  match shared.fields.find? fun (key, _) => key == nameKey typeName with
  | some (_, fields) => fields
  | none => .empty

def get (shared : SharedStatics) (typeName field : String) : Value :=
  (shared.fieldsOf typeName).get field

/-- A field with a new value. -/
def set (shared : SharedStatics) (typeName field : String) (value : Value) : SharedStatics :=
  let key := nameKey typeName
  { shared with
    fields := (key, (shared.fieldsOf typeName).set field value) ::
      shared.fields.filter fun (other, _) => other != key }

end SharedStatics

end StackScript
