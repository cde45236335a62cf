import StackScript.Lowering.Draft

/-!
# Calls, creations and static fields

Here calls are bound. A declared function, and a method whose receiver is known for certain, is
called directly with one value per parameter. A function that is declared only when the program
runs is looked up in the context, and every other method call gets a call site.

## Main definitions

* `Lowered`: an expression as code, for its value and for its effect
* `pushArguments`: the values of a direct call
* `lowerCall`, `lowerMethodCall`, `lowerCreate`, `loadStatic`, `storeStatic`
-/

namespace StackScript

open Emit

/-- The code of an expression: the one leaves its value on the stack, the other nothing. -/
structure Lowered where
  value : Emit Unit
  effect : Emit Unit

namespace Lowered

/-- An expression whose value is dropped where only its effect counts. -/
def ofValue (value : Emit Unit) : Lowered where
  value := value
  effect := do
    value
    emit .pop

end Lowered

/-- The code of arguments beyond the parameters: they are evaluated and dropped. -/
def dropArguments : List Lowered → Emit Unit
  | [] => pure ()
  | arg :: rest => do
    arg.effect
    dropArguments rest

def pushAll : List Lowered → Emit Unit
  | [] => pure ()
  | arg :: rest => do
    arg.value
    pushAll rest

/-- One value per parameter: the context where it is asked for, else the next argument, else the
default. Arguments that are left over are evaluated and dropped. -/
def pushArguments (env : BodyEnv) (callee : String) : List Parameter → List Lowered → Emit Unit
  | [], args => dropArguments args
  | param :: params, args =>
    match param.type, args, param.default with
    | .context, _, _ => do
      loadContext env
      pushArguments env callee params args
    | .value _, arg :: args, _ => do
      arg.value
      pushArguments env callee params args
    | .value _, [], some default => do
      loadLiteral default
      pushArguments env callee params []
    | .value _, [], none => reject (.missingArgument callee param.name)

/-- A call of a function by name. -/
def lowerCall (env : BodyEnv) (function : QualifiedName) (args : List Lowered) : Emit Unit :=
  match env.table.function? function.text with
  | some entry => do
    loadContext env
    pushArguments env entry.name.text entry.routine.params args
    emit (.call (.function entry.name) entry.routine.params.length false)
  | none => do
    loadContext env
    pushAll args
    emit (.callGlobal function args.length)

/-- A method name as code: known, or pushed in front of the arguments. -/
inductive LoweredName where
  | direct (name : String)
  | computed (value : Emit Unit)

/-- An argument of a method call as code. -/
structure LoweredArgument where
  code : Lowered
  shape : ArgShape

/-- The method that a call surely reaches: the receiver's type and the name are known, the method
is an instance method, and no argument is spread. -/
def directTarget? (env : BodyEnv) (name : LoweredName) (args : List LoweredArgument)
    (receiverType : Option QualifiedName) : Option (TypeEntry × Routine) :=
  match name, receiverType with
  | .direct name, some type =>
    match env.table.resolveMethod? type.text name with
    | some (entry, method) =>
      if !method.isStatic && args.all (·.shape == .value) then some (entry, method) else none
    | none => none
  | _, _ => none

/-- A method call through a call site: receiver, context, the name if it is computed, and the
arguments as they are. -/
def lowerLateCall (env : BodyEnv) (receiver : Emit Unit) (name : LoweredName)
    (args : List LoweredArgument) : Emit Unit := do
  receiver
  loadContext env
  let shapes := args.map (·.shape)
  match name with
  | .direct name =>
    pushAll (args.map (·.code))
    emit (.callSite ⟨← nextSite, .direct name, shapes⟩)
  | .computed value =>
    value
    pushAll (args.map (·.code))
    emit (.callSite ⟨← nextSite, .computed, .value :: shapes⟩)

def lowerMethodCall (env : BodyEnv) (receiver : Emit Unit) (name : LoweredName)
    (args : List LoweredArgument) (receiverType : Option QualifiedName) : Emit Unit :=
  match directTarget? env name args receiverType with
  | some (entry, method) => do
    receiver
    loadContext env
    pushArguments env method.displayName method.params (args.map (·.code))
    emit (.call (.method entry.name method.name) method.params.length true)
  | none => lowerLateCall env receiver name args

/-- A new object. The arguments go to the initializer of the type; those of a type that has none
are evaluated and dropped. A type declared only when the program runs gets all arguments. -/
def lowerCreate (env : BodyEnv) (type : QualifiedName) (args : List Lowered) : Emit Unit :=
  match env.table.type? type.text with
  | some entry => do
    loadContext env
    match env.table.resolveInitializer? entry with
    | some (_, init) =>
      pushArguments env init.displayName init.params args
      emit (.newObject entry.name init.params.length)
    | none =>
      dropArguments args
      emit (.newObject entry.name 0)
  | none =>
    if env.table.declaresType type.text then do
      loadContext env
      pushAll args
      emit (.newObject type args.length)
    else throw (.unresolvedType type.text)

/-- A static field: the type that declares it, and whether every context has its own copy. -/
def resolveStaticField (env : BodyEnv) (type : QualifiedName) (field : String) :
    Emit (QualifiedName × Bool) :=
  match env.table.resolveStatic? type.text field with
  | some entry =>
    pure (entry.name, match entry.field? field with
      | some declared => declared.requiresContext
      | none => false)
  | none =>
    if env.table.declaresType type.text then
      throw (.unresolvedMember (type.text ++ "::$" ++ field))
    else throw (.unresolvedType type.text)

def loadStatic (env : BodyEnv) (type : QualifiedName) (field : String) : Emit Unit := do
  let (owner, bound) ← resolveStaticField env type field
  if bound then
    loadContext env
    emit (.loadBound owner field)
  else emit (.loadShared owner field)

/-- An assignment to a static field, whose value is kept or not. A value that is kept passes
through a scratch slot where the context has to go below it. -/
def storeStatic (env : BodyEnv) (type : QualifiedName) (field : String) (value : Emit Unit)
    (keep : Bool) : Emit Unit := do
  let (owner, bound) ← resolveStaticField env type field
  match bound, keep with
  | false, keep =>
    value
    if keep then emit .dup
    emit (.storeShared owner field)
  | true, false =>
    loadContext env
    value
    emit (.storeBound owner field)
  | true, true =>
    -- The value is evaluated before the context is pushed, and is needed twice.
    value
    let slot ← scratch
    emit (.storeLocal slot)
    loadContext env
    emit (.loadLocal slot)
    emit (.storeBound owner field)
    emit (.loadLocal slot)
    release slot

end StackScript
