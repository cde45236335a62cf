import StackScript.Lowering.Call

/-!
# Expressions and statements as code

The code of an expression leaves its value on the stack above what was there; operands are pushed
from left to right.

## Main definitions

* `lower`: an expression as code
* `emitStatement`: a statement as code
-/

namespace StackScript

open Emit

/-- `and` and `or`: the operand that decides jumps straight to the result. -/
def lowerLogical (decidedBy : Bool) (left right : Emit Unit) : Emit Unit := do
  let test : BranchKind := if decidedBy then .ifTrue else .ifFalse
  let short ← defineLabel
  let done ← defineLabel
  left
  branch test short
  right
  branch test short
  emit (.loadBool !decidedBy)
  branch .always done
  mark short
  emit (.loadBool decidedBy)
  mark done

/-- An operator of two operands. -/
def lowerBinary (op : BinaryOp) (left right : Emit Unit) : Emit Unit :=
  match op with
  | .and => lowerLogical false left right
  | .or => lowerLogical true left right
  | op => do
    left
    right
    emit (.binary op)

/-- An assignment to a field, whose value is kept in a scratch slot. -/
def lowerFieldStore (receiver : Emit Unit) (field : String) (value : Emit Unit) : Emit Unit := do
  receiver
  value
  let slot ← scratch
  emit (.storeLocal slot)
  emit (.loadLocal slot)
  emit (.storeField field)
  emit (.loadLocal slot)
  release slot

/-- An entry of an array as code. -/
structure LoweredEntry where
  key : Option (Emit Unit)
  value : Emit Unit

/-- The entries of an array. If one of them has a key, the others push null for theirs. -/
def pushEntries (keyed : Bool) : List LoweredEntry → Emit Unit
  | [] => pure ()
  | entry :: rest => do
    if keyed then entry.key.getD (emit .loadNull)
    entry.value
    pushEntries keyed rest

def lowerArray (entries : List LoweredEntry) : Emit Unit := do
  let keyed := entries.any (·.key.isSome)
  pushEntries keyed entries
  emit (.newArray entries.length keyed)

mutual

def lower (env : BodyEnv) : Expr → Lowered
  | .literal literal => .ofValue (loadLiteral literal)
  | .var name => .ofValue (loadVariable env name)
  | .assign target value =>
    let value := (lower env value).value
    { value := do
        value
        emit .dup
        storeVariable env target
      effect := do
        value
        storeVariable env target }
  | .binary op left right =>
    .ofValue (lowerBinary op (lower env left).value (lower env right).value)
  | .unary op operand =>
    let operand := (lower env operand).value
    .ofValue do
      operand
      emit (.unary op)
  | .call function args => .ofValue (lowerCall env function (lowerAll env args))
  | .methodCall receiver name args receiverType =>
    .ofValue (lowerMethodCall env (lower env receiver).value (lowerName env name)
      (lowerArguments env args) receiverType)
  | .create type args => .ofValue (lowerCreate env type (lowerAll env args))
  | .this => .ofValue (loadThis env)
  | .fieldLoad receiver field =>
    let receiver := (lower env receiver).value
    .ofValue do
      receiver
      emit (.loadField field)
  | .fieldStore receiver field value =>
    let receiver := (lower env receiver).value
    let value := (lower env value).value
    { value := lowerFieldStore receiver field value
      effect := do
        receiver
        value
        emit (.storeField field) }
  | .staticLoad type field => .ofValue (loadStatic env type field)
  | .staticStore type field value =>
    let value := (lower env value).value
    { value := storeStatic env type field value true
      effect := storeStatic env type field value false }
  | .array entries => .ofValue (lowerArray (lowerEntries env entries))
  | .instanceOf value type =>
    let value := (lower env value).value
    .ofValue do
      value
      emit (.isInstance type)

def lowerAll (env : BodyEnv) : List Expr → List Lowered
  | [] => []
  | arg :: rest => lower env arg :: lowerAll env rest

def lowerName (env : BodyEnv) : MethodName → LoweredName
  | .direct name => .direct name
  | .computed value => .computed (lower env value).value

def lowerArguments (env : BodyEnv) : List Argument → List LoweredArgument
  | [] => []
  | arg :: rest => lowerArgument env arg :: lowerArguments env rest

def lowerArgument (env : BodyEnv) : Argument → LoweredArgument
  | .plain value => ⟨lower env value, .value⟩
  | .unpacked value => ⟨lower env value, .unpacked⟩

def lowerEntries (env : BodyEnv) : List ArrayEntry → List LoweredEntry
  | [] => []
  | entry :: rest => lowerEntry env entry :: lowerEntries env rest

def lowerEntry (env : BodyEnv) : ArrayEntry → LoweredEntry
  | .item value => ⟨none, (lower env value).value⟩
  | .keyed key value => ⟨some (lower env key).value, (lower env value).value⟩

end

/-- Leaves the value of an expression on the stack. -/
def emitValue (env : BodyEnv) (e : Expr) : Emit Unit := (lower env e).value

/-- Evaluates an expression for its effect. -/
def emitEffect (env : BodyEnv) (e : Expr) : Emit Unit := (lower env e).effect

def emitAction (env : BodyEnv) : Action → Emit Unit
  | .eval value => emitEffect env value
  | .echo value => do
    loadContext env
    emitValue env value
    emit .echo
  | .return value => do
    match value with
    | some value => emitValue env value
    | none => emit .loadNull
    emit (.storeLocal (← withSlots (·.result)))
  | .throw value => do
    emitValue env value
    emit .throw

/-- A statement as code, marked with its place in the source if that is asked for. -/
def emitStatement (env : BodyEnv) (statement : Statement) : Emit Unit := do
  if env.settings.sequencePoints then
    match statement.span with
    | some span => onAssembler (·.sequencePoint span)
    | none => pure ()
  emitAction env statement.action

def emitStatements (env : BodyEnv) : List Statement → Emit Unit
  | [] => pure ()
  | statement :: rest => do
    emitStatement env statement
    emitStatements env rest

end StackScript
