import StackScript.Machine.Step
import StackScript.Memory.Basic
import StackScript.Program

/-!
# Running programs

Loading a program makes its bodies known by their keys and builds the types of its objects from the
types that are declared unconditionally, each behind the type of its base. If a type is among its own
bases, this never ends.

A loaded program answers the requests of its frames from the memory, and by running further
routines. Programs need not end, so every run is given fuel.

## Main definitions

* `Image`, `Image.load`: a loaded program
* `Table.buildType`, `Table.buildTypes`: the types of the objects of declared types
* `Image.body?`, `Image.type?`: look-up by key and by name
* `Activity`: a running routine
* `Image.answer`: the answer to a frame's request
* `Image.run`: the run of a routine
* `Image.call`, `Image.callMethod`, `Image.construct`, `Image.declare`: what a host asks for
-/

namespace StackScript

/-- The types of objects that have been built, by their keys, and the number of the next one. -/
structure TypeStore where
  built : List (String × RuntimeType)
  next : TypeId

namespace TypeStore

/-- No type has been built. -/
def empty : TypeStore := ⟨[], 1⟩

/-- The type of a key. -/
def type? (store : TypeStore) (key : String) : Option RuntimeType := store.built.lookup key

/-- A new type, with a number of its own. -/
def add (store : TypeStore) (key : String) (base : Option RuntimeType) (name : String)
    (methods : List Method) : RuntimeType × TypeStore :=
  let type := .extend base store.next name methods
  (type, ⟨(key, type) :: store.built, store.next + 1⟩)

end TypeStore

namespace Table

/-- The types that are declared unconditionally. -/
def unconditionalTypes (table : Table) : List TypeEntry :=
  table.types.filter (!·.placement.conditional)

/-- The entry of a type's base, if that is declared unconditionally. -/
def base? (table : Table) (entry : TypeEntry) : Option TypeEntry :=
  entry.base.bind fun base => table.type? base.text

/-- The methods that objects of a type have from the type itself. -/
def objectMethods (entry : TypeEntry) : List Method :=
  (entry.methods.filter (!·.isStatic)).map fun method =>
    let formals := method.params.map Parameter.formal
    { name := method.name
      declaringType := entry.name.text
      formals
      routine := .compiled (BodyName.method entry.name method.name).key formals }

/-- The type of the objects of a declared type: the one that was built before, or a new one behind
the type of the base. There is none if the types above do not end; the first argument bounds their
number. -/
def buildType (table : Table) : Nat → TypeStore → TypeEntry → Option (RuntimeType × TypeStore)
  | 0, _, _ => none
  | steps + 1, store, entry =>
    match store.type? entry.name.key with
    | some type => some (type, store)
    | none =>
      match table.base? entry with
      | some base => do
        let (type, store) ← table.buildType steps store base
        return store.add entry.name.key (some type) entry.name.text (objectMethods entry)
      | none => some (store.add entry.name.key none entry.name.text (objectMethods entry))

/-- The types of the objects of all types, one after the other as they are declared. There are none
if a type is among its own bases; else a type has no more bases than there are types. -/
def buildTypes (table : Table) : Option TypeStore :=
  table.unconditionalTypes.foldlM
    (fun store entry => (table.buildType (table.types.length + 1) store entry).map (·.2)) .empty

end Table

/-- A loaded program. -/
structure Image where
  /-- The bodies by their keys, the last one first. -/
  bodies : List (String × Body)
  /-- The types of objects; none if building them never ends. -/
  types : Option TypeStore

namespace Image

/-- The image without bodies and types. -/
def empty : Image := ⟨[], some .empty⟩

/-- A program, loaded. -/
def load (program : Program) : Image where
  bodies := (program.bodies.map fun body => (body.name.key, body)).reverse
  types := program.table.buildTypes

/-- The body of a key; of several bodies with one key the last. -/
def body? (image : Image) (key : String) : Option Body :=
  (image.bodies.find? fun (other, _) => other == key).map (·.2)

/-- The type of a name. -/
def type? (image : Image) (name : String) : Option RuntimeType :=
  image.types.bind (·.type? (nameKey name))

/-- What needs types waits until they are all built, perhaps forever. -/
def awaitTypes (image : Image) : Run Unit :=
  if image.types.isSome then return () else Run.exhausted

/-- The body of a key; its absence is an error. -/
def bodyOf (image : Image) (key : String) : Except DispatchError Body :=
  match image.body? key with
  | some body => .ok body
  | none => .error (.failed (.noBody key))

end Image

/-- A running routine. -/
inductive Activity where
  /-- A frame of a body, at its next step. -/
  | frame (body : Body) (step : Step)
  | native (routine : Native) (receiver : Value) (args : List Value)

def Activity.ofBody (body : Body) (receiver : Option Value) (args : List FrameArg) : Activity :=
  .frame body (.running (.enter body receiver args))

/-- How routines are run in a context. -/
abbrev Runner := ContextId → Activity → Run Value

/-- The arguments for formal parameters, the context where it belongs. Missing values are null. -/
def layArgs : List Formal → List Value → List FrameArg
  | [], _ => []
  | formal :: rest, values =>
    match formal.kind with
    | .context => .context :: layArgs rest values
    | .supplied _ => .value (values.headD .null) :: layArgs rest values.tail

mutual

/-- What a routine of the host does. -/
def Native.run (call : String → List Value → Run Value) (echo : String → Run Unit)
    (receiver : Value) (args : List Value) : Native → Run Value
  | .result value => return value
  | .arguments => return .ofList args
  | .firstArgument => return args.headD .null
  | .argumentCount => return .long (Int64.ofNat args.length)
  | .receiver => return receiver
  | .throwing value => throw (.thrown value)
  | .failing text => throw (.failed (.native text))
  | .echo text => do
    echo text
    return .null
  | .call name => call name args
  | .sequence steps => Native.runAll call echo receiver args .null steps

/-- What several routines do one after the other; the last result counts. -/
def Native.runAll (call : String → List Value → Run Value) (echo : String → Run Unit)
    (receiver : Value) (args : List Value) (last : Value) : List Native → Run Value
  | [] => return last
  | step :: rest => do
    let value ← Native.run call echo receiver args step
    Native.runAll call echo receiver args value rest

end

namespace Image

section Requests

variable (image : Image) (run : Runner) (context : ContextId)

/-- A call of a routine with supplied values. -/
def callRoutine (routine : RoutineRef) (receiver : Option Value) (args : List Value) :
    Run Value := do
  match routine with
  | .compiled key formals =>
    let body ← MonadExcept.ofExcept (image.bodyOf key)
    run context (.ofBody body receiver (.context :: layArgs formals args))
  | .native index =>
    let memory ← getThe Memory
    match memory.natives[index]? with
    | some native => run context (.native native (receiver.getD .null) args)
    | none => throw (.failed (.noBody (toString index)))

/-- A call of a function that was declared in the context. -/
def callFunction (name : String) (args : List Value) : Run Value := do
  let memory ← getThe Memory
  match (memory.context context).function? name with
  | some routine => image.callRoutine run context routine none args
  | none => throw (.undefinedFunction name)

/-- A late-bound call through the site of a shape. -/
def invokeSite (shape : SiteShape) (receiver : Value) (args : List Value) : Run Value := do
  let memory ← getThe Memory
  let (site, sites) := memory.sites.site shape
  let (prepared, site) := site.prepare receiver args
  set { memory with sites := sites.update site }
  let invocation ← MonadExcept.ofExcept prepared
  image.callRoutine run context invocation.method.routine (some (.object invocation.receiver))
    invocation.args

/-- The arguments of a late-bound call with unpacked arrays replaced by their values. The site of
the shape is there from then on. -/
def flattenArgs (shape : SiteShape) (pushed : List Value) : Run (List Value) := do
  let memory ← getThe Memory
  let (site, sites) := memory.sites.site shape
  set { memory with sites }
  MonadExcept.ofExcept (site.flatten pushed)

/-- A new object of a type, behind its constructor. -/
def create (type : QualifiedName) (args : List FrameArg) : Run Value := do
  image.awaitTypes
  match image.type? type.text with
  | none => throw (.failed (.typeNotLoaded type.text))
  | some runtimeType =>
    let memory ← getThe Memory
    let (object, memory) := memory.create runtimeType
    set memory
    let body ← MonadExcept.ofExcept (image.bodyOf (BodyName.constructor type).key)
    let _ ← run context (.ofBody body (some (.object object)) args)
    return .object object

/-- Runs a member of a type that initializes static fields, if there is one. -/
def runInitializer (type : QualifiedName) (member : String) (args : List FrameArg) : Run Unit := do
  match image.body? (BodyName.method type member).key with
  | some body => discard (run context (.ofBody body none args))
  | none => return ()

/-- The shared static fields of a type are initialized. -/
def initializeShared (type : QualifiedName) : Run Unit :=
  ensureInitialized type.text
    (image.runInitializer run context type BodyName.typeInitializerName [])

/-- The number of the static fields of a type in the context, initialized. -/
def initializeBound (type : QualifiedName) : Run HolderId :=
  boundStatics context type.text fun _ =>
    image.runInitializer run context type BodyName.staticsInitializerName [.context]

/-- The answer to a request of a frame. -/
def answer : Request → Run Value
  | .echo text => do
    modifyThe Memory (·.echo context text)
    return .null
  | .loadField object field => do
    return ((← getThe Memory).fieldsOf object).get field
  | .storeField object field value => do
    modifyThe Memory (·.setField object field value)
    return .null
  | .loadShared type field => do
    image.initializeShared run context type
    return (← getThe Memory).shared.get type.text field
  | .storeShared type field value => do
    image.initializeShared run context type
    modifyThe Memory fun memory =>
      { memory with shared := memory.shared.set type.text field value }
    return .null
  | .loadBound type field => do
    let id ← image.initializeBound run context type
    return ((← getThe Memory).context context).getStatic id field
  | .storeBound type field value => do
    let id ← image.initializeBound run context type
    modifyThe Memory fun memory =>
      memory.setContext context ((memory.context context).setStatic id field value)
    return .null
  | .call name receiver args => do
    let body ← MonadExcept.ofExcept (image.bodyOf name.key)
    run context (.ofBody body receiver args)
  | .callGlobal name args => image.callFunction run context name.text args
  | .callSite shape receiver pushed => do
    let args ← flattenArgs shape pushed
    image.invokeSite run context shape receiver args
  | .create type args => image.create run context type args

end Requests

/-- The run of a routine. Each step takes one unit of fuel, and a routine that is called gets what
is left. -/
def run (image : Image) : Nat → Runner
  | 0, _, _ => Run.exhausted
  | fuel + 1, context, .frame body step =>
    match step with
    | .returned value => return value
    | .failed error => throw error
    | .running frame => image.run fuel context (.frame body (body.step frame))
    | .asking request frame => do
      let answer ← Run.attempt (image.answer (image.run fuel) context request)
      image.run fuel context (.frame body (body.resume request frame answer))
  | fuel + 1, context, .native routine receiver args =>
    routine.run (image.callFunction (image.run fuel) context)
      (fun text => modifyThe Memory (·.echo context text)) receiver args

section Host

variable (image : Image) (fuel : Nat) (context : ContextId)

def call (name : String) (args : List Value) : Run Value := do
  let body ← MonadExcept.ofExcept
    (image.bodyOf (BodyName.function (.ofString name)).key)
  image.run fuel context
    (.ofBody body none (.context :: layArgs (body.params.map Parameter.formal) args))

/-- A call of a method of a type on a given receiver. -/
def callMethod (type name : String) (receiver : Value) (args : List Value) : Run Value := do
  let body ← MonadExcept.ofExcept
    (image.bodyOf (BodyName.method (.ofString type) name).key)
  image.run fuel context
    (.ofBody body (some receiver) (.context :: layArgs (body.params.map Parameter.formal) args))

/-- A new object of a type, from the arguments of its constructor. -/
def construct (type : String) (args : List Value) : Run Value :=
  image.create (image.run fuel) context (.ofString type) (.context :: args.map FrameArg.value)

/-- Declares the function of a body in the context, as its conditional declaration does when it is
reached. -/
def declare (context : ContextId) (name : String) : Run Unit := do
  let key := Text.foldCase name
  match image.body? key with
  | none => throw (.failed (.noBody name))
  | some body =>
    let memory ← getThe Memory
    let routine := .compiled key (body.params.map Parameter.formal)
    let declared ← MonadExcept.ofExcept
      ((memory.context context).declare body.name.name routine)
    set (memory.setContext context declared)

/-- A new object of a type whose constructor does not run; none if the type is not loaded. -/
def createBare (type : String) : Run (Option Value) := do
  image.awaitTypes
  match image.type? type with
  | none => return none
  | some runtimeType =>
    let memory ← getThe Memory
    let (object, memory) := memory.create runtimeType
    set memory
    return some (.object object)

end Host

end Image

/-- Declares a function of the host in a context. -/
def declareNative (context : ContextId) (name : String) (native : Native) : Run Unit := do
  let memory ← getThe Memory
  let (routine, memory) := memory.addNative native
  let declared ← MonadExcept.ofExcept ((memory.context context).declare name routine)
  set (memory.setContext context declared)

end StackScript
