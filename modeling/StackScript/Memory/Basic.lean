import StackScript.Dispatch.Site
import StackScript.Memory.Statics

/-!
# The memory of a running program

A context owns what belongs to one execution of a program: the functions that were declared while
it ran, the static fields that are bound to it, and its output.

A function or method need not be compiled: the host of a program can supply its own. What such a
routine does is written in a small vocabulary.

## Main definitions

* `Context`: a context
* `Context.declare`, `Context.function?`: functions declared at run time
* `Context.enterStatics`, `Context.leaveStatics`: an access to static fields, before and after the
  initializer
* `Native`: what a routine of the host does
* `Memory`: objects, contexts, shared static fields, call sites and routines of the host
* `Run`: an action on the memory that may fail with an error, or run out of fuel
* `ensureInitialized`, `boundStatics`: accesses to static fields around an initializer
-/

namespace StackScript

/-- The number of the static fields of one type in a context. -/
abbrev HolderId := Nat

/-- A context. Functions and types are known by their keys. -/
structure Context where
  functions : List (String × RoutineRef)
  /-- The static fields of each type, in the order of their first access. -/
  holders : Array (String × Holder)
  output : String

namespace Context

/-- A context in which nothing has happened. -/
def new : Context := ⟨[], #[], ""⟩

/-- The function of a name. -/
def function? (context : Context) (name : String) : Option RoutineRef :=
  let key := nameKey name
  (context.functions.find? fun (other, _) => other == key).map (·.2)

/-- A function of that name was declared. -/
def declares (context : Context) (name : String) : Bool := (context.function? name).isSome

/-- The context with one more function, unless the name is taken. -/
def declare (context : Context) (name : String) (routine : RoutineRef) :
    Except DispatchError Context :=
  if context.declares name then .error (.functionRedeclared name)
  else .ok { context with functions := context.functions ++ [(nameKey name, routine)] }

/-- The number of a type's static fields. -/
def holderId? (context : Context) (typeName : String) : Option HolderId :=
  let key := nameKey typeName
  context.holders.findIdx? fun (other, _) => other == key

def holder? (context : Context) (id : HolderId) : Option Holder := context.holders[id]?.map (·.2)

def hasStatics (context : Context) (typeName : String) : Bool :=
  (context.holderId? typeName).isSome

/-- The context with other static fields under a number. -/
def setHolder (context : Context) (id : HolderId) (holder : Holder) : Context :=
  { context with holders := context.holders.modify id fun (key, _) => (key, holder) }

/-- An access to a type's static fields: what it meets, their number, and the state in which an
initializer runs. -/
def enterStatics (context : Context) (typeName : String) : Admission × HolderId × Context :=
  match context.holderId? typeName with
  | some id =>
    let admission := match context.holder? id with
      | some holder => holder.admission
      | none => .granted
    (admission, id, context)
  | none =>
    (.first, context.holders.size,
      { context with holders := context.holders.push (nameKey typeName, .new typeName) })

/-- The state after the initializer. -/
def leaveStatics (context : Context) (id : HolderId) (outcome : Except DispatchError Unit) :
    Context :=
  match outcome, context.holder? id with
  | .error error, some holder => context.setHolder id { holder with failure := some error }
  | _, _ => context

def getStatic (context : Context) (id : HolderId) (field : String) : Value :=
  match context.holder? id with
  | some holder => holder.fields.get field
  | none => .null

def setStatic (context : Context) (id : HolderId) (field : String) (value : Value) : Context :=
  match context.holder? id with
  | some holder => context.setHolder id { holder with fields := holder.fields.set field value }
  | none => context

def echo (context : Context) (text : String) : Context :=
  { context with output := context.output ++ text }

def describe (context : Context) : String :=
  (Outline.record "Context" [
    ("functions", .nat context.functions.length),
    ("statics", .nat context.holders.size)]).describe

end Context

/-- The number of a context. -/
abbrev ContextId := Nat

/-- What a routine of the host does. -/
inductive Native where
  /-- Returns a fixed value. -/
  | result (value : Value)
  /-- Returns the list of its arguments. -/
  | arguments
  /-- Returns its first argument. -/
  | firstArgument
  /-- Returns the number of its arguments. -/
  | argumentCount
  /-- Returns the object that it is called on. -/
  | receiver
  | throwing (value : Value)
  | failing (text : String)
  | echo (text : String)
  /-- Calls a function of the context with the same arguments. -/
  | call (function : String)
  /-- Does one after the other, up to the first error, and returns the last result. -/
  | sequence (steps : List Native)

/-- The memory of a running program. -/
structure Memory where
  /-- The fields of each object. -/
  objects : Array Fields
  contexts : Array Context
  shared : SharedStatics
  sites : Registry
  natives : Array Native

namespace Memory

/-- An empty memory. Its call sites have caches of a given size. -/
def empty (cacheSize : Nat) : Memory := ⟨#[], #[], .empty, .new cacheSize, #[]⟩

/-- A new object of a type. -/
def create (memory : Memory) (type : RuntimeType) : ObjectRef × Memory :=
  (⟨memory.objects.size, type⟩, { memory with objects := memory.objects.push .empty })

def fieldsOf (memory : Memory) (object : ObjectRef) : Fields :=
  memory.objects[object.id]?.getD .empty

def setField (memory : Memory) (object : ObjectRef) (field : String) (value : Value) : Memory :=
  { memory with objects := memory.objects.modify object.id (·.set field value) }

def addContext (memory : Memory) : ContextId × Memory :=
  (memory.contexts.size, { memory with contexts := memory.contexts.push .new })

def context (memory : Memory) (id : ContextId) : Context := memory.contexts[id]?.getD .new

/-- The memory with another state of a context. -/
def setContext (memory : Memory) (id : ContextId) (context : Context) : Memory :=
  { memory with contexts := memory.contexts.setIfInBounds id context }

def echo (memory : Memory) (id : ContextId) (text : String) : Memory :=
  { memory with contexts := memory.contexts.modify id (·.echo text) }

/-- A new routine of the host. -/
def addNative (memory : Memory) (native : Native) : RoutineRef × Memory :=
  (.native memory.natives.size, { memory with natives := memory.natives.push native })

end Memory

/-- An action on the memory. It may fail with an error, which keeps what it did to the memory, or
run out of fuel. -/
abbrev Run := ExceptT DispatchError (StateT Memory Option)

namespace Run

/-- The action needs more fuel than it was given. -/
def exhausted {α : Type} : Run α := ExceptT.mk fun _ => none

/-- The action with its error as a result. -/
def attempt {α : Type} (action : Run α) : Run (Except DispatchError α) :=
  ExceptT.mk fun memory =>
    match action.run memory with
    | none => none
    | some (result, memory) => some (.ok result, memory)

end Run

section Initialization

variable {m : Type → Type} [Monad m] [MonadStateOf Memory m] [MonadExceptOf DispatchError m]

/-- The outcome of an initializer. -/
def outcomeOf (init : m Unit) : m (Except DispatchError Unit) :=
  tryCatch (do init; return .ok ()) fun error => return .error error

/-- An access to the static fields that all contexts share. The first one of a type runs the
initializer. -/
def ensureInitialized (typeName : String) (init : m Unit) : m Unit := do
  let memory ← getThe Memory
  let (admission, shared) := memory.shared.enter typeName
  match admission with
  | .granted => return ()
  | .refused error => throw error
  | .first =>
    set { memory with shared }
    let outcome ← outcomeOf init
    modifyThe Memory fun memory => { memory with shared := memory.shared.leave typeName outcome }
    match outcome with
    | .ok () => return ()
    | .error error => throw error

/-- An access to the static fields of a type in a context. The first one runs the initializer,
which receives their number. -/
def boundStatics (context : ContextId) (typeName : String) (init : HolderId → m Unit) :
    m HolderId := do
  let memory ← getThe Memory
  let (admission, id, entered) := (memory.context context).enterStatics typeName
  match admission with
  | .granted => return id
  | .refused error => throw error
  | .first =>
    set (memory.setContext context entered)
    let outcome ← outcomeOf (init id)
    modifyThe Memory fun memory =>
      memory.setContext context ((memory.context context).leaveStatics id outcome)
    match outcome with
    | .ok () => return id
    | .error error => throw error

end Initialization

end StackScript
