import StackScript.Document.Graph

/-!
# Graphs step by step, as documents

A graph is read as the list of the steps that build it. Between these steps others may ask about
the graph built so far.

## Main definitions

* `GraphQuestion`, `Graph.answer`: what can be asked about a graph
* `GraphStep`, `Graph.perform`: a step of either sort, and what it comes to
* `GraphStep.ofJson`, `Graph.ofJson`: reading
-/

namespace StackScript

/-! ## Questions -/

/-- A question about a graph. -/
inductive GraphQuestion where
  | ends
  | counts
  | outgoing (b : BlockId)
  | block (b : BlockId)
  | targets (e : EdgeId)
  | incoming (b : BlockId)
  | reachable
  | unterminated
  /-- The clause of an edge that handles a type of a name. -/
  | handler (e : EdgeId) (type : String)
  | whole

def outlineNumbers (numbers : List Nat) : Outline := .list (numbers.map Outline.nat)

/-- What a block says about itself. -/
def Block.summary (b : BlockId) (block : Block) : Outline :=
  .record "Block" [
    ("id", .text (showBlock block.id.toNat)), ("ordinal", .nat block.id.toNat),
    ("kind", .word (blockWord b)),
    ("is_exit", .bool (b == Graph.exit)), ("statements", .nat block.statements.length),
    ("outgoing", .ofOption Outline.nat block.outgoing)]

/-- What a handling clause says about itself and a type of a name. -/
def CatchClause.summary (type : String) (clause : CatchClause) : Outline :=
  .record "CatchClause" [
    ("type", .text clause.type.text), ("variable", .ofOption .text clause.binding),
    ("target", .nat clause.target), ("anything", .bool clause.catchesAnything),
    ("same", .bool (clause.type == QualifiedName.ofString type))]

namespace Graph

/-- The block of a number, which has to exist. -/
def requireBlock (graph : Graph) (b : BlockId) : Except GraphDefect Block :=
  match graph.blocks[b]? with
  | some block => .ok block
  | none => .error (.noSuchBlock b)

/-- The edge of a number, which has to exist. -/
def requireEdge (graph : Graph) (e : EdgeId) : Except GraphDefect Edge :=
  match graph.edges[e]? with
  | some edge => .ok edge
  | none => .error (.noSuchEdge e)

/-- The blocks that a search has found, unless it ran into an edge that leads nowhere. -/
def foundBlocks : Option (List BlockId) → Except GraphDefect Outline
  | some blocks => .ok (outlineNumbers blocks)
  | none => .error .danglingEdge

def answer (graph : Graph) : GraphQuestion → Except GraphDefect Outline
  | .ends => .ok (outlineNumbers [start, exit])
  | .counts => .ok (outlineNumbers [graph.blocks.size, graph.edges.size])
  | .outgoing b => do
    let block ← graph.requireBlock b
    match block.outgoing, graph.outgoing? b with
    | some e, some edge => return .list [.nat e, .nat edge.source, .bool edge.kind.isTry]
    | _, _ => return .missing
  | .block b => return (← graph.requireBlock b).summary b
  | .targets e => return outlineNumbers (← graph.requireEdge e).kind.targets
  | .incoming b => .ok (outlineNumbers (graph.incoming b))
  | .reachable => foundBlocks graph.reachable?
  | .unterminated => foundBlocks graph.unterminated?
  | .handler e type => do
    let edge ← graph.requireEdge e
    return .ofOption (CatchClause.summary type) (edge.kind.handlingCatch? type)
  | .whole => .ok graph.outline

end Graph

/-! ## Steps -/

/-- A step with a graph: one that builds it, or one that asks. -/
inductive GraphStep where
  | build (step : BuildStep)
  | ask (question : GraphQuestion)

/-- What a step that builds has added: the last new block, the number of statements in the block,
or the new edge. -/
def BuildStep.outcome (after : Graph) : BuildStep → Outline
  | .addBlocks 0 => .missing
  | .addBlocks _ => .ofOption (fun block => .nat block.id.toNat) after.blocks.back?
  | .pushStatement b _ => .ofOption (fun block => .nat block.statements.length) after.blocks[b]?
  | .connect .. => .ofOption (fun edge => .nat edge.id.toNat) after.edges.back?

/-- What a step comes to: its answer and the graph behind it. -/
def Graph.perform (graph : Graph) : GraphStep → Except GraphDefect (Outline × Graph)
  | .build step => do
    let extended ← graph.apply step
    return (step.outcome extended, extended)
  | .ask question => return (← graph.answer question, graph)

/-! ## Reading -/

def CatchClause.ofJson : Json → Decode CatchClause
  | .array [type, binding, target] =>
    return ⟨← type.qualifiedName, ← binding.orNull Json.text, ← target.nat32⟩
  | _ => malformed

def SwitchCase.ofJson : Json → Decode SwitchCase
  | .array [value, target] => return ⟨← value.orNull Expr.ofJson, ← target.nat32⟩
  | _ => malformed

def EdgeKind.ofJson (name : String) (parts : List Json) : Decode EdgeKind := do
  match name, parts with
  | "simple", [target] => return .jump (← target.nat32)
  | "cond", [condition, ifTrue, ifFalse] =>
    return .branch (← Expr.ofJson condition) (← ifTrue.nat32) (← ifFalse.nat32)
  | "foreach", [subject, target] => return .enumerate (← Expr.ofJson subject) (← target.nat32)
  | "try", [body, catches, finally?, next] =>
    return .tryCatch (← body.nat32) (← catches.listOf CatchClause.ofJson)
      (← finally?.orNull Json.nat32) (← next.nat32)
  | "next", [loop, key, value, body, next] =>
    return .advance (← loop.nat32) (← key.orNull Json.text) (← value.text) (← body.nat32)
      (← next.nat32)
  | "switch", [subject, cases, next] =>
    return .switch (← Expr.ofJson subject) (← cases.listOf SwitchCase.ofJson) (← next.nat32)
  | _, _ => malformed

def GraphQuestion.ofJson (name : String) (parts : List Json) : Decode GraphQuestion := do
  match name, parts with
  | "start_exit", [] => return .ends
  | "counts", [] => return .counts
  | "outgoing", [b] => return .outgoing (← b.nat32)
  | "block_info", [b] => return .block (← b.nat32)
  | "targets", [e] => return .targets (← e.nat32)
  | "preds", [b] => return .incoming (← b.nat32)
  | "reachable", [] => return .reachable
  | "validate", [] => return .unterminated
  | "handling", [e, type] => return .handler (← e.nat32) (← type.text)
  | "dump", [] => return .whole
  | _, _ => malformed

/-- The names of the ways in which a block ends. -/
def edgeWords : List String := ["simple", "cond", "foreach", "try", "next", "switch"]

def GraphStep.ofJson : Json → Decode GraphStep
  | .array [.string "block"] => return .build (.addBlocks 1)
  | .array [.string "blocks", count] => return .build (.addBlocks (← count.nat64))
  | .array (.string "stmt" :: b :: action :: rest) => do
    let span ← match rest with
      | [] => pure none
      | [span] => span.orNull Span.ofJson
      | _ => malformed
    return .build (.pushStatement (← b.nat32) ⟨← Action.ofJson action, span⟩)
  | .array (.string name :: parts) => do
    if edgeWords.contains name then
      match parts with
      | source :: parts =>
        return .build (.connect (← source.nat32) (← EdgeKind.ofJson name parts))
      | [] => malformed
    else return .ask (← GraphQuestion.ofJson name parts)
  | _ => malformed

/-- A graph behind a step of a document. -/
def Graph.applyJson (graph : Graph) (json : Json) : Decode Graph := do
  match graph.perform (← GraphStep.ofJson json) with
  | .ok (_, extended) => return extended
  | .error defect => .error (.defect defect)

def Graph.ofJson : Json → Decode Graph
  | .array steps => steps.foldlM Graph.applyJson Graph.new
  | _ => malformed

end StackScript
