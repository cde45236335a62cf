import StackScript.Lowering.Layout

/-!
# Compiling one body

A program is compiled body by body: every routine, and the members that types have without a
declaration. Every type has a constructor; it may have initializers for its static fields, and a
member by which its objects are called like functions. Their code follows from the declaration of
the type. A body depends on the others only in the numbers of its call sites.

## Main definitions

* `constructorCode`: the context, then the base, then the fields, then the user's initializer
* `sharedInitializerCode`, `boundInitializerCode`: the initial values of static fields
* `invokeCode`: a call of the object through a call site
* `WorkItem`, `WorkItem.all`: what there is to compile, in order
* `WorkItem.compile`: the body of an item, and the number of the next call site
-/

namespace StackScript

open Emit

/-- The field in which an object keeps the context that it was created in. -/
def contextField : String := "<ctx>"

/-- Pushes the body's own parameters as they are, from a place on. -/
def passThroughFrom (env : BodyEnv) (index : Nat) : List Parameter → Emit Unit
  | [] => pure ()
  | param :: rest => do
    if param.isContext then loadContext env
    else emit (.loadArg (← argumentSlot index))
    passThroughFrom env (index + 1) rest

/-- Pushes all of the body's own parameters as they are. -/
def passThrough (env : BodyEnv) : Emit Unit := passThroughFrom env 0 env.params

/-- A value parameter of the body itself, that can be handed on. -/
structure OwnParameter where
  index : Nat
  name : String
  hint : TypeHint

/-- The value parameters of a list, with their places. -/
def ownParametersFrom (index : Nat) : List Parameter → List OwnParameter
  | [] => []
  | param :: rest =>
    match param.type with
    | .value hint => ⟨index, param.name, hint⟩ :: ownParametersFrom (index + 1) rest
    | .context => ownParametersFrom (index + 1) rest

/-- One value per parameter of the base's initializer: the context where it is asked for, else the
body's own next value parameter if its type fits, else the default once there is none left. -/
def forwardParameters (env : BodyEnv) (base : QualifiedName) :
    List OwnParameter → List Parameter → Emit Unit
  | _, [] => pure ()
  | own, param :: rest =>
    match param.type, own, param.default with
    | .context, own, _ => do
      loadContext env
      forwardParameters env base own rest
    | .value expected, mine :: own, _ => do
      if mine.hint.canBePassedTo expected then
        emit (.loadArg (← argumentSlot mine.index))
        forwardParameters env base own rest
      else reject (.cannotForward mine.name mine.hint param.name base expected)
    | .value _, [], some default => do
      loadLiteral default
      forwardParameters env base [] rest
    | .value _, [], none => reject (.nothingToForward param.name base)

/-- The parameters of the initializer that runs for objects of a type. -/
def initializerParams (table : Table) (entry : TypeEntry) : List Parameter :=
  match table.resolveInitializer? entry with
  | some (_, init) => init.params
  | none => []

/-- The call of the base's constructor. A base declared only when the program runs gets all
parameters as they are. -/
def forwardToBase (env : BodyEnv) (base : QualifiedName) : Emit Unit :=
  match env.table.type? base.text with
  | some entry => do
    let params := initializerParams env.table entry
    loadThis env
    loadContext env
    forwardParameters env entry.name (ownParametersFrom 0 env.params) params
    emit (.call (.constructor entry.name) params.length true)
    emit .pop
  | none =>
    if env.table.declaresType base.text then do
      loadThis env
      loadContext env
      passThrough env
      emit (.call (.constructor base) env.params.length true)
      emit .pop
    else throw (.unresolvedType base.text)

def initialValue (env : BodyEnv) (field : Field) : Emit Unit :=
  match field.initializer with
  | some initializer => emitValue env initializer
  | none => emit .loadNull

/-- Stores the initial values of the fields of a new object. -/
def initializeFields (env : BodyEnv) : List Field → Emit Unit
  | [] => pure ()
  | field :: rest => do
    loadThis env
    initialValue env field
    emit (.storeField field.name)
    initializeFields env rest

/-- Runs the user's initializer, if the new object is of exactly this type: the constructors of
derived types come here as well. -/
def runInitializer (env : BodyEnv) (entry declaring : TypeEntry) (init : Routine) :
    Emit Unit := do
  let skip ← defineLabel
  loadThis env
  emit (.isExactType entry.name)
  branch .ifFalse skip
  loadThis env
  loadContext env
  passThrough env
  emit (.call ((BodyName.method declaring.name init.name).atSite declaring.placement.site?)
    env.params.length true)
  emit .pop
  mark skip

def returnNull : Emit Unit := do
  emit .loadNull
  emit .return

def constructorCode (env : BodyEnv) (entry : TypeEntry) : Emit Unit := do
  if entry.storesContext then
    loadThis env
    loadContext env
    emit .assertNotNull
    emit (.storeField contextField)
  match entry.base with
  | some base => forwardToBase env base
  | none => pure ()
  initializeFields env entry.instanceFields
  match env.table.resolveInitializer? entry with
  | some (declaring, init) => runInitializer env entry declaring init
  | none => pure ()
  returnNull

/-- Stores the initial values of static fields that all contexts share. -/
def initializeShared (env : BodyEnv) (entry : TypeEntry) : List Field → Emit Unit
  | [] => pure ()
  | field :: rest => do
    initialValue env field
    emit (.storeShared entry.name field.name)
    initializeShared env entry rest

/-- The initializer of the static fields that all contexts share. -/
def sharedInitializerCode (env : BodyEnv) (entry : TypeEntry) : Emit Unit := do
  initializeShared env entry entry.sharedFields
  returnNull

/-- Stores the initial values of static fields of which every context has its own copy. -/
def initializeBound (env : BodyEnv) (entry : TypeEntry) : List Field → Emit Unit
  | [] => pure ()
  | field :: rest => do
    loadContext env
    initialValue env field
    emit (.storeBound entry.name field.name)
    initializeBound env entry rest

/-- The initializer of the static fields of which every context has its own copy. -/
def boundInitializerCode (env : BodyEnv) (entry : TypeEntry) : Emit Unit := do
  initializeBound env entry entry.boundFields
  returnNull

/-- The parameter of the member by which an object is called: the array of the arguments. -/
def invokeParam : Parameter := ⟨"args", .value .array, none⟩

/-- A call of the object like a function. -/
def invokeCode (env : BodyEnv) : Emit Unit := do
  loadThis env
  loadContext env
  emit (.loadArg (← argumentSlot 0))
  emit (.callSite ⟨← nextSite, .magic .invoke, [.unpacked]⟩)
  emit .return

/-- A body that is to be compiled. -/
inductive WorkItem where
  /-- A routine, the file that it is declared in, and the tag of a conditional declaration. -/
  | routine (subject : Routine) (file : String) (site : Option String)
  | constructor (entry : TypeEntry)
  | sharedInitializer (entry : TypeEntry)
  | boundInitializer (entry : TypeEntry)
  | invoke (entry : TypeEntry)

def Routine.bodyName (routine : Routine) : BodyName :=
  match routine.owner with
  | some owner => .method owner routine.name
  | none => .function (QualifiedName.ofString routine.name)

namespace WorkItem

def bodyName : WorkItem → BodyName
  | .routine subject _ site => subject.bodyName.atSite site
  | .constructor entry => entry.bodyName BodyName.constructorName
  | .sharedInitializer entry => entry.bodyName BodyName.typeInitializerName
  | .boundInitializer entry => entry.bodyName BodyName.staticsInitializerName
  | .invoke entry => entry.bodyName BodyName.invokeName

/-- The name of the body in messages. -/
def displayName (item : WorkItem) : String := item.bodyName.text

/-- The bodies of a type: its methods, its constructor, and what else it needs. -/
def ofType (entry : TypeEntry) : List WorkItem :=
  entry.methods.map (fun method => .routine method entry.placement.file entry.placement.site?) ++
    [.constructor entry] ++
    (if entry.hasSharedFields then [.sharedInitializer entry] else []) ++
    (if entry.hasBoundFields then [.boundInitializer entry] else []) ++
    (if entry.handlesInvoke then [.invoke entry] else [])

/-- All bodies of a program, conditional declarations included: first the functions, then the
types, each in the order of the files. -/
def all (table : Table) : List WorkItem :=
  table.functions.map (fun entry =>
    .routine entry.routine entry.placement.file entry.placement.site?) ++
  table.types.flatMap ofType

end WorkItem

/-- What compiling a body comes to: the body or an error, and the number of the next call site. -/
abbrev Compiled := Except CodegenError Body × SiteId

/-- Names the routine that an error concerns. -/
def blame (routine : String) (result : Except Cause Body) : Except CodegenError Body :=
  match result with
  | .ok body => .ok body
  | .error cause => .error ⟨routine, cause⟩

/-- In a debug build an instance method that carries its context checks first that the receiver was
created with one. -/
def receiverCheck (env : BodyEnv) (routine : Routine) : Emit Unit := do
  if env.settings.optimization == .debug && !routine.isStatic && routine.threadsContext then
    loadThis env
    Emit.emit (.loadField contextField)
    Emit.emit .assertNotNull
    Emit.emit .pop

def compileRoutine (table : Table) (settings : Settings) (routine : Routine) (file : String)
    (site : Option String) (nextSite : SiteId) : Compiled :=
  let name := routine.bodyName.atSite site
  let env : BodyEnv := {
    table, settings
    routine := name.text
    params := routine.params
    isStatic := routine.isStatic
    hasContext := true }
  let (checked, draft) := (receiverCheck env routine).run (.start nextSite)
  match checked with
  | .error cause => (.error ⟨name.text, cause⟩, draft.nextSite)
  | .ok () =>
    let (layout, draft) := layOut env routine.graph draft
    (blame name.text (layout.map fun layout => {
      name
      kind := .routine
      params := routine.params
      hasContext := true
      isStatic := routine.isStatic
      sourceFile := file
      code := layout.assembled.code
      blockOffsets := layout.blockOffsets
      regions := layout.regions
      maxStack := layout.assembled.maxStack
      locals := layout.assembled.locals
      sequencePoints := layout.assembled.sequencePoints
      callSites := layout.assembled.callSites }), draft.nextSite)

/-- The body of a member that has no declaration. -/
def compileMember (table : Table) (settings : Settings) (entry : TypeEntry) (name : BodyName)
    (kind : BodyKind) (params : List Parameter) (isStatic hasContext : Bool)
    (code : BodyEnv → Emit Unit) (nextSite : SiteId) : Compiled :=
  let env : BodyEnv := { table, settings, routine := name.text, params, isStatic, hasContext }
  let (written, draft) := (code env).run (.start nextSite)
  let assembled := do
    written
    draft.asm.finish settings.maxLocals
  (blame name.text (assembled.map fun assembled => {
    name, kind, params, hasContext, isStatic
    sourceFile := entry.placement.file
    code := assembled.code
    blockOffsets := []
    regions := []
    maxStack := assembled.maxStack
    locals := assembled.locals
    sequencePoints := assembled.sequencePoints
    callSites := assembled.callSites }), draft.nextSite)

def WorkItem.compile (table : Table) (settings : Settings) (item : WorkItem) (nextSite : SiteId) :
    Compiled :=
  match item with
  | .routine subject file site => compileRoutine table settings subject file site nextSite
  | .constructor entry =>
    compileMember table settings entry item.bodyName .constructor (initializerParams table entry)
      false true (constructorCode · entry) nextSite
  | .sharedInitializer entry =>
    compileMember table settings entry item.bodyName .typeInitializer [] true false
      (sharedInitializerCode · entry) nextSite
  | .boundInitializer entry =>
    compileMember table settings entry item.bodyName .staticsInitializer [] true true
      (boundInitializerCode · entry) nextSite
  | .invoke entry =>
    compileMember table settings entry item.bodyName .invokeTrampoline [invokeParam] false true
      invokeCode nextSite

end StackScript
