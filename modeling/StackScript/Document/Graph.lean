import StackScript.Code.Body
import StackScript.Document.Expr

/-!
# Graphs as documents

A graph is written as its blocks and edges, with the expressions in them.

## Main definitions

* `Expr.outline`, `Statement.outline`: expressions and statements
* `EdgeKind.outline`, `Graph.outline`: edges and graphs
-/

namespace StackScript

mutual

def Expr.outline : Expr → Outline
  | .literal value => .tagged "Literal" value.outline
  | .var name => .tagged "Variable" (.text name)
  | .assign target value =>
    .taggedRecord "Assign" [("target", .text target), ("value", value.outline)]
  | .binary op left right =>
    .taggedRecord "Binary" [
      ("op", .word op.name), ("left", left.outline), ("right", right.outline)]
  | .unary op operand =>
    .taggedRecord "Unary" [("op", .word op.name), ("operand", operand.outline)]
  | .call function args =>
    .taggedRecord "Call" [("function", .text function.text), ("args", .list (outlineAll args))]
  | .methodCall receiver name args receiverType =>
    .taggedRecord "MethodCall" [
      ("receiver", receiver.outline), ("name", name.outline),
      ("args", .list (outlineArguments args)),
      ("receiver_type", .ofOption (fun type => .text type.text) receiverType)]
  | .create type args =>
    .taggedRecord "New" [("ty", .text type.text), ("args", .list (outlineAll args))]
  | .this => .word "This"
  | .fieldLoad receiver field =>
    .taggedRecord "FieldLoad" [("receiver", receiver.outline), ("field", .text field)]
  | .fieldStore receiver field value =>
    .taggedRecord "FieldStore" [
      ("receiver", receiver.outline), ("field", .text field), ("value", value.outline)]
  | .staticLoad type field =>
    .taggedRecord "StaticFieldLoad" [("ty", .text type.text), ("field", .text field)]
  | .staticStore type field value =>
    .taggedRecord "StaticFieldStore" [
      ("ty", .text type.text), ("field", .text field), ("value", value.outline)]
  | .array entries => .tagged "Array" (.list (outlineEntries entries))
  | .instanceOf value type =>
    .taggedRecord "InstanceOf" [("value", value.outline), ("ty", .text type.text)]

def outlineAll : List Expr → List Outline
  | [] => []
  | value :: rest => value.outline :: outlineAll rest

def MethodName.outline : MethodName → Outline
  | .direct name => .tagged "Direct" (.text name)
  | .computed value => .tagged "Computed" value.outline

def outlineArguments : List Argument → List Outline
  | [] => []
  | arg :: rest => arg.outline :: outlineArguments rest

def Argument.outline : Argument → Outline
  | .plain value => .record "Argument" [("value", value.outline), ("unpack", .bool false)]
  | .unpacked value => .record "Argument" [("value", value.outline), ("unpack", .bool true)]

def outlineEntries : List ArrayEntry → List Outline
  | [] => []
  | entry :: rest => entry.outline :: outlineEntries rest

def ArrayEntry.outline : ArrayEntry → Outline
  | .item value => .list [.missing, value.outline]
  | .keyed key value => .list [.present key.outline, value.outline]

end

def Action.outline : Action → Outline
  | .eval value => .tagged "Expr" value.outline
  | .echo value => .tagged "Echo" value.outline
  | .return value => .tagged "Return" (.ofOption Expr.outline value)
  | .throw value => .tagged "Throw" value.outline

def Statement.outline (statement : Statement) : Outline :=
  .record "Statement" [
    ("kind", statement.action.outline), ("span", .ofOption Span.outline statement.span)]

/-- The word for the place of a block in its graph. -/
def blockWord (b : BlockId) : String :=
  if b = Graph.start then "Start" else if b = Graph.exit then "Exit" else "Normal"

def Block.outline (b : BlockId) (block : Block) : Outline :=
  .record "Block" [
    ("id", .nat block.id.toNat), ("kind", .word (blockWord b)),
    ("statements", .list (block.statements.map Statement.outline)),
    ("outgoing", .ofOption Outline.nat block.outgoing)]

def CatchClause.outline (clause : CatchClause) : Outline :=
  .record "CatchClause" [
    ("type_name", .text clause.type.text), ("variable", .ofOption .text clause.binding),
    ("target", .nat clause.target)]

def SwitchCase.outline (c : SwitchCase) : Outline :=
  .record "SwitchCase" [
    ("label", match c.value with
      | some value => .tagged "Value" value.outline
      | none => .word "Default"),
    ("target", .nat c.target)]

def outlineBound (name : String) : Outline := .record "Bound" [("name", .text name)]

def EdgeKind.outline : EdgeKind → Outline
  | .jump target => .taggedRecord "Simple" [("target", .nat target)]
  | .branch condition ifTrue ifFalse =>
    .taggedRecord "Conditional" [
      ("condition", condition.outline), ("if_true", .nat ifTrue), ("if_false", .nat ifFalse)]
  | .tryCatch body catches finally? next =>
    .taggedRecord "TryCatch" [
      ("body", .nat body), ("catches", .list (catches.map CatchClause.outline)),
      ("finally", .ofOption Outline.nat finally?), ("end", .nat next)]
  | .enumerate subject target =>
    .taggedRecord "ForeachEnumeree" [("enumeree", subject.outline), ("target", .nat target)]
  | .advance loop key value body next =>
    .taggedRecord "ForeachMoveNext" [
      ("enumeree", .nat loop), ("key", .ofOption outlineBound key), ("value", outlineBound value),
      ("body", .nat body), ("end", .nat next)]
  | .switch subject cases next =>
    .taggedRecord "Switch" [
      ("scrutinee", subject.outline), ("cases", .list (cases.map SwitchCase.outline)),
      ("end", .nat next)]

def Edge.outline (edge : Edge) : Outline :=
  .record "Edge" [
    ("id", .nat edge.id.toNat), ("source", .nat edge.source), ("kind", edge.kind.outline)]

def Graph.outline (graph : Graph) : Outline :=
  .record "Graph" [
    ("blocks", .list (graph.blocks.toList.zipIdx.map fun (block, b) => block.outline b)),
    ("edges", .list (graph.edges.toList.map Edge.outline)),
    ("start", .nat Graph.start), ("exit", .nat Graph.exit)]

end StackScript
