import StackScript.Document.Access
import StackScript.Source

/-!
# Reading expressions and statements

## Main definitions

* `Expr.ofJson`, `Action.ofJson`: expressions and statements
* `Parameter.ofJson`: parameters with their declared types
-/

namespace StackScript

def Literal.ofJson (json : Json) : Decode Literal := do
  match ← json.alternative with
  | ("Null", none) => return .null
  | ("Bool", some b) => return .bool (← b.1.flag)
  | ("Long", some n) => return .long (← n.1.int64)
  | ("Double", some d) => return .double (← d.1.number)
  | ("String", some s) => return .string (← s.1.text)
  | _ => malformed

def BinaryOp.ofJson : Json → Decode BinaryOp :=
  Json.oneOf ([.add, .sub, .mul, .concat, .eq, .notEq, .lt, .gt, .identical, .and, .or].map
    fun op : BinaryOp => (op.name, op))

def UnaryOp.ofJson : Json → Decode UnaryOp :=
  Json.oneOf ([.not, .neg].map fun op : UnaryOp => (op.name, op))

mutual

def Expr.ofJson (json : Json) : Decode Expr := do
  match ← json.alternative with
  | ("Literal", some part) => return .literal (← Literal.ofJson part)
  | ("Variable", some part) => return .var (← part.1.text)
  | ("Assign", some part) =>
    return .assign (← part.1.field "target" Json.text) (← Expr.ofJson (← part.require "value"))
  | ("Binary", some part) =>
    return .binary (← part.1.field "op" BinaryOp.ofJson)
      (← Expr.ofJson (← part.require "left")) (← Expr.ofJson (← part.require "right"))
  | ("Unary", some part) =>
    return .unary (← part.1.field "op" UnaryOp.ofJson) (← Expr.ofJson (← part.require "operand"))
  | ("Call", some part) =>
    return .call (← part.1.field "function" Json.qualifiedName)
      (← (← (← part.require "args").items).mapM fun arg => Expr.ofJson arg.1)
  | ("MethodCall", some part) =>
    return .methodCall (← Expr.ofJson (← part.require "receiver"))
      (← MethodName.ofJson (← part.require "name"))
      (← (← (← part.require "args").items).mapM fun arg => Argument.ofJson arg.1)
      (← part.1.optional "receiver_type" Json.qualifiedName)
  | ("New", some part) =>
    return .create (← part.1.field "ty" Json.qualifiedName)
      (← (← (← part.require "args").items).mapM fun arg => Expr.ofJson arg.1)
  | ("This", none) => return .this
  | ("FieldLoad", some part) =>
    return .fieldLoad (← Expr.ofJson (← part.require "receiver"))
      (← part.1.field "field" Json.text)
  | ("FieldStore", some part) =>
    return .fieldStore (← Expr.ofJson (← part.require "receiver"))
      (← part.1.field "field" Json.text) (← Expr.ofJson (← part.require "value"))
  | ("StaticFieldLoad", some part) =>
    return .staticLoad (← part.1.field "ty" Json.qualifiedName) (← part.1.field "field" Json.text)
  | ("StaticFieldStore", some part) =>
    return .staticStore (← part.1.field "ty" Json.qualifiedName)
      (← part.1.field "field" Json.text) (← Expr.ofJson (← part.require "value"))
  | ("Array", some part) =>
    return .array (← (← part.items).mapM fun entry => ArrayEntry.ofJson entry.1)
  | ("InstanceOf", some part) =>
    return .instanceOf (← Expr.ofJson (← part.require "value"))
      (← part.1.field "ty" Json.qualifiedName)
  | _ => malformed
termination_by sizeOf json
decreasing_by all_goals exact Json.Part.smaller _

def MethodName.ofJson (json : Json) : Decode MethodName := do
  match ← json.alternative with
  | ("Direct", some name) => return .direct (← name.1.text)
  | ("Computed", some value) => return .computed (← Expr.ofJson value)
  | _ => malformed
termination_by sizeOf json
decreasing_by all_goals exact Json.Part.smaller _

def Argument.ofJson (json : Json) : Decode Argument := do
  let value ← Expr.ofJson (← json.require "value")
  return if ← json.field "unpack" Json.flag then .unpacked value else .plain value
termination_by sizeOf json
decreasing_by all_goals exact Json.Part.smaller _

def ArrayEntry.ofJson (json : Json) : Decode ArrayEntry := do
  match ← json.items with
  | [⟨.null, _⟩, value] => return .item (← Expr.ofJson value)
  | [key, value] => return .keyed (← Expr.ofJson key) (← Expr.ofJson value)
  | _ => malformed
termination_by sizeOf json
decreasing_by all_goals exact Json.Part.smaller _

end

def Action.ofJson (json : Json) : Decode Action := do
  match ← json.alternative with
  | ("Expr", some value) => return .eval (← Expr.ofJson value)
  | ("Echo", some value) => return .echo (← Expr.ofJson value)
  | ("Return", some value) => return .return (some (← Expr.ofJson value))
  | ("Return", none) => return .return none
  | ("Throw", some value) => return .throw (← Expr.ofJson value)
  | _ => malformed

/-- A place in the source: line and column of its start and of its end. -/
def Span.ofJson (json : Json) : Decode Span := do
  match ← json.listOf Json.nat32 with
  | [startLine, startColumn, endLine, endColumn] =>
    return ⟨startLine, startColumn, endLine, endColumn⟩
  | _ => malformed

def TypeHint.ofJson (json : Json) : Decode TypeHint := do
  match ← json.alternative with
  | ("Value", none) => return .value
  | ("Bool", none) => return .bool
  | ("Long", none) => return .long
  | ("Double", none) => return .double
  | ("String", none) => return .string
  | ("Array", none) => return .array
  | ("Object", some type) => return .object (← type.1.qualifiedName)
  | _ => malformed

def ParameterType.ofJson (json : Json) : Decode ParameterType := do
  match ← json.alternative with
  | ("Context", none) => return .context
  | ("Value", some hint) => return .value (← TypeHint.ofJson hint)
  | _ => malformed

def Parameter.ofJson (json : Json) : Decode Parameter := do
  return {
    name := ← json.field "name" Json.text
    type := ← json.field "ty" ParameterType.ofJson
    default := ← json.optional "default" Literal.ofJson }

end StackScript
