import StackScript.Lowering.Expr
import StackScript.Proofs.Evaluation.World

/-!
# The meaning of expressions

An evaluator that follows the tree of an expression. Operands are evaluated from left to right and
once each, and the right operand of `and` and `or` only if the left one does not decide; what a call
or an access does is asked of the world. The late-bound calls of a program are numbered in the
order in which they are written, so meanings are given out with the numbers of their call sites.

## Main definitions

* `Numbered`: what depends on the number of the next call site
* `Expr.meaning`: the evaluator
-/

namespace StackScript

/-- What depends on the number of the next call site, with the number behind it. -/
abbrev Numbered := StateM SiteId

namespace Numbered

/-- The number of a call site. -/
def site : Numbered SiteId := modifyGet fun n => (n, n + 1)

end Numbered

def Literal.value : Literal → Value
  | .null => .null
  | .bool b => .bool b
  | .long n => .long n
  | .double d => .double d
  | .string s => .string s

namespace Eval

variable {σ : Type} (world : World σ) (env : BodyEnv)

/-! ## Variables -/

def readVariable (name : String) : Eval σ Slot :=
  match env.meaning name with
  | .context => return .context
  | .parameter index => return (← vars).args (index + 1)
  | .local => return (← vars).locals name

/-- An assignment to a variable. The context is none. -/
def writeVariable (name : String) (value : Slot) : Eval σ Unit :=
  match env.meaning name with
  | .context => return ()
  | .parameter index => modifyVars (·.setArg (index + 1) value)
  | .local => modifyVars (·.setLocal name value)

/-- The receiver of the activation. -/
def readReceiver : Eval σ Slot := do
  match (← vars).receiver with
  | some receiver => return .value receiver
  | none => throw (.failed .noReceiver)

/-! ## Operators -/

/-- `and` and `or`: the right operand counts only if the left one does not decide. -/
def logical (decidedBy : Bool) (left right : Eval σ Slot) : Eval σ Slot := do
  let a ← left
  if a.toValue.truthy = decidedBy then return .value (.bool decidedBy)
  else
    let b ← right
    return .value (.bool b.toValue.truthy)

def operate (op : BinaryOp) (left right : Eval σ Slot) : Eval σ Slot :=
  match op with
  | .and => logical false left right
  | .or => logical true left right
  | op => do
    let a ← left
    let b ← right
    return .value (op.apply a.toValue b.toValue)

/-! ## Arguments -/

def all : List (Eval σ Slot) → Eval σ (List Slot)
  | [] => return []
  | arg :: rest => do
    let x ← arg
    return x :: (← all rest)

/-- Arguments whose values are not needed. -/
def drop : List (Eval σ Slot) → Eval σ Unit
  | [] => return ()
  | arg :: rest => do
    let _ ← arg
    drop rest

/-- One value per parameter: the context where it is asked for, else the next argument, else the
default. Arguments that are left over are evaluated too. -/
def pass : List Parameter → List (Eval σ Slot) → Eval σ (List Slot)
  | [], args => do
    drop args
    return []
  | param :: params, args =>
    match param.type, args, param.default with
    | .context, _, _ => return .context :: (← pass params args)
    | .value _, arg :: args, _ => do
      let x ← arg
      return x :: (← pass params args)
    | .value _, [], some default => return .value default.value :: (← pass params [])
    | .value _, [], none => return .unset :: (← pass params [])

/-- The entries of an array: key and value, the key null if there is none. -/
def entries : List (Option (Eval σ Slot) × Eval σ Slot) → Eval σ (List (Slot × Slot))
  | [] => return []
  | (key, value) :: rest => do
    let key ← key.getD (return .unset)
    let value ← value
    return (key, value) :: (← entries rest)

def array (items : List (Option (Eval σ Slot) × Eval σ Slot)) : Eval σ Slot := do
  let pairs ← entries items
  return .value (.ofEntries (pairs.map fun (key, value) => (key.toValue, value.toValue)))

/-- What a frame passes on: the context, then the values. -/
def withContext (values : List Slot) : List FrameArg := (.context :: values).map Slot.toArg

/-! ## Calls and creations -/

/-- A call of a function by name: one that is declared gets one value per parameter. -/
def call (function : QualifiedName) (args : List (Eval σ Slot)) : Eval σ Slot :=
  match env.table.function? function.text with
  | some entry => do
    let values ← pass entry.routine.params args
    return .value (← request world (.call (.function entry.name) none (withContext values)))
  | none => do
    let values ← all args
    return .value (← request world (.callGlobal function (values.map Slot.toValue)))

/-- A call of a method that is known for certain. -/
def callDirect (entry : TypeEntry) (method : Routine) (receiver : Eval σ Slot)
    (args : List (Eval σ Slot)) : Eval σ Slot := do
  let receiver ← receiver
  let values ← pass method.params args
  let body := .method entry.name method.name
  return .value (← request world (.call body (some receiver.toValue) (withContext values)))

/-- A call of a method through a call site. A name that is computed is evaluated behind the receiver
and passed in front of the arguments. -/
def callLate (shape : SiteShape) (receiver : Eval σ Slot) (args : List (Eval σ Slot)) :
    Eval σ Slot := do
  let receiver ← receiver
  let values ← all args
  return .value (← request world (.callSite shape receiver.toValue (values.map Slot.toValue)))

/-- A new object. The arguments go to the initializer of its type. -/
def create (type : QualifiedName) (args : List (Eval σ Slot)) : Eval σ Slot :=
  match env.table.type? type.text with
  | some entry =>
    match env.table.resolveInitializer? entry with
    | some (_, init) => do
      let values ← pass init.params args
      return .value (← request world (.create entry.name (withContext values)))
    | none => do
      drop args
      return .value (← request world (.create entry.name (withContext [])))
  | none => do
    let values ← all args
    return .value (← request world (.create type (withContext values)))

/-! ## Fields -/

/-- The value of a field of a receiver that is known. -/
def readField (field : String) (receiver : Slot) : Eval σ Slot :=
  match receiver.toValue.object? with
  | some object => return .value (← request world (.loadField object field))
  | none => throw (.failed (.fieldRead field receiver.toValue.kind))

/-- An assignment to a field of a receiver that is known. -/
def writeField (field : String) (receiver value : Slot) : Eval σ Unit :=
  match receiver.toValue.object? with
  | some object => discard (request world (.storeField object field value.toValue))
  | none => throw (.failed (.fieldWrite field receiver.toValue.kind))

def loadField (field : String) (receiver : Eval σ Slot) : Eval σ Slot := do
  readField world field (← receiver)

/-- An assignment to a field. The receiver is looked at only when the value is known. -/
def storeField (field : String) (receiver value : Eval σ Slot) : Eval σ Slot := do
  let receiver ← receiver
  let value ← value
  writeField world field receiver value
  return value

/-- The type that declares a static field, and whether every context has its own copy. -/
def staticField? (type : QualifiedName) (field : String) : Option (QualifiedName × Bool) :=
  (env.table.resolveStatic? type.text field).map fun entry =>
    (entry.name, match entry.field? field with
      | some declared => declared.requiresContext
      | none => false)

def loadStatic (type : QualifiedName) (field : String) : Eval σ Slot :=
  match staticField? env type field with
  | some (owner, true) => return .value (← request world (.loadBound owner field))
  | some (owner, false) => return .value (← request world (.loadShared owner field))
  | none => return .unset

/-- An assignment of a known value to a static field. -/
def writeStatic (type : QualifiedName) (field : String) (value : Value) : Eval σ Unit :=
  match staticField? env type field with
  | some (owner, true) => discard (request world (.storeBound owner field value))
  | some (owner, false) => discard (request world (.storeShared owner field value))
  | none => return ()

def storeStatic (type : QualifiedName) (field : String) (value : Eval σ Slot) : Eval σ Slot := do
  let x ← value
  writeStatic world env type field x.toValue
  return x

end Eval

/-! ## Expressions -/

/-- The method that a call surely reaches: the type of the receiver and the name are known, the
method is an instance method, and no argument is spread. -/
def MethodName.target? (env : BodyEnv) (name : MethodName) (args : List Argument)
    (receiverType : Option QualifiedName) : Option (TypeEntry × Routine) :=
  match name, receiverType with
  | .direct name, some type =>
    (env.table.resolveMethod? type.text name).filter fun (_, method) =>
      !method.isStatic && args.all (!·.isUnpacked)
  | _, _ => none

/-- The shape of an argument of a late-bound call. -/
def Argument.shape (arg : Argument) : ArgShape := if arg.isUnpacked then .unpacked else .value

section Expressions

variable {σ : Type} (world : World σ) (env : BodyEnv)

open Eval

mutual

/-- The value of an expression. What cannot be compiled has no meaning, and the evaluator says
something of its own. -/
def Expr.meaning : Expr → Numbered (Eval σ Slot)
  | .literal literal => return pure (.value literal.value)
  | .var name => return readVariable env name
  | .assign target value => do
    let value ← value.meaning
    return do
      let x ← value
      writeVariable env target x
      return x
  | .binary op left right => do
    let left ← left.meaning
    let right ← right.meaning
    return operate op left right
  | .unary op operand => do
    let operand ← operand.meaning
    return do
      let x ← operand
      return .value (op.apply x.toValue)
  | .call function args => return Eval.call world env function (← meaningAll args)
  | .methodCall receiver name args receiverType => do
    let receiver ← receiver.meaning
    let selected ← name.meaning
    let values ← meaningArguments args
    match name.target? env args receiverType with
    | some (entry, method) => return callDirect world entry method receiver values
    | none =>
      let shapes := args.map Argument.shape
      let id ← Numbered.site
      match name, selected with
      | .direct name, _ => return callLate world ⟨id, .direct name, shapes⟩ receiver values
      | .computed _, selected =>
        return callLate world ⟨id, .computed, .value :: shapes⟩ receiver (selected :: values)
  | .create type args => return Eval.create world env type (← meaningAll args)
  | .this => return readReceiver
  | .fieldLoad receiver field => return Eval.loadField world field (← receiver.meaning)
  | .fieldStore receiver field value => do
    let receiver ← receiver.meaning
    let value ← value.meaning
    return Eval.storeField world field receiver value
  | .staticLoad type field => return Eval.loadStatic world env type field
  | .staticStore type field value => return Eval.storeStatic world env type field (← value.meaning)
  | .array items => do
    let items ← meaningEntries items
    return Eval.array items
  | .instanceOf value type => do
    let value ← value.meaning
    return do
      let x ← value
      return .value (.bool (x.toValue.isInstanceOf type))

/-- The values of several expressions. -/
def meaningAll : List Expr → Numbered (List (Eval σ Slot))
  | [] => return []
  | arg :: rest => do
    let value ← arg.meaning
    return value :: (← meaningAll rest)

/-- The name of a method, if it is computed. -/
def MethodName.meaning : MethodName → Numbered (Eval σ Slot)
  | .direct _ => return pure .unset
  | .computed value => value.meaning

/-- The values of the arguments of a method call. -/
def meaningArguments : List Argument → Numbered (List (Eval σ Slot))
  | [] => return []
  | arg :: rest => do
    let value ← arg.meaning
    return value :: (← meaningArguments rest)

def Argument.meaning : Argument → Numbered (Eval σ Slot)
  | .plain value => value.meaning
  | .unpacked value => value.meaning

def meaningEntries : List ArrayEntry → Numbered (List (Option (Eval σ Slot) × Eval σ Slot))
  | [] => return []
  | entry :: rest => do
    let first ← entry.meaning
    return first :: (← meaningEntries rest)

def ArrayEntry.meaning : ArrayEntry → Numbered (Option (Eval σ Slot) × Eval σ Slot)
  | .item value => return (none, ← value.meaning)
  | .keyed key value => do
    let key ← key.meaning
    let value ← value.meaning
    return (some key, value)

end

end Expressions

end StackScript
