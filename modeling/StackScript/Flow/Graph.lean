import StackScript.Expr

/-!
# Flow graphs

The body of a routine is a graph of blocks. A block holds statements and ends in at most one edge,
which names every block that control may reach next. Blocks and edges are known by number, in order
of creation; the number of a block is also its place in the source, by which the parts of a
`try` are told apart. Block 0 is the start and block 1 the exit. Every block and every edge keeps its
own number, of 32 bits.

## Main definitions

* `Graph`: the blocks and edges
* `EdgeKind`: the ways in which a block can end
* `EdgeKind.targets`: the blocks an edge leads to, in order
* `EdgeKind.walk`: the visit of the blocks an edge leads to
* `Discovery`: the blocks that a search has found
* `Graph.reachable?`: the blocks that a breadth-first search from the start block finds, in order
  of discovery
* `Graph.unterminated?`: the reachable blocks, the exit apart, that no edge ends
-/

namespace StackScript

/-- The number of a block. -/
abbrev BlockId := Nat

/-- The number of an edge. -/
abbrev EdgeId := Nat

/-- A clause that handles thrown objects of a type. -/
structure CatchClause where
  type : QualifiedName
  binding : Option String
  target : BlockId

namespace CatchClause

/-- The name of the type that every thrown value belongs to. -/
def rootType : String := "Exception"

/-- The clause handles every thrown value. -/
def catchesAnything (clause : CatchClause) : Bool := clause.type.spelledBy rootType

end CatchClause

/-- A case of a switch: a value to compare with, or the default. -/
structure SwitchCase where
  value : Option Expr
  target : BlockId

namespace SwitchCase

/-- The case is taken if no other one is. -/
def isDefault (c : SwitchCase) : Bool := c.value.isNone

end SwitchCase

/-- How a block ends. -/
inductive EdgeKind where
  | jump (target : BlockId)
  | branch (condition : Expr) (ifTrue ifFalse : BlockId)
  /-- A protected body with its handlers; all go on at `next`. -/
  | tryCatch (body : BlockId) (catches : List CatchClause) (finally? : Option BlockId)
      (next : BlockId)
  /-- The start of a loop over a value; the target advances the loop. -/
  | enumerate (subject : Expr) (target : BlockId)
  /-- One step of the loop that the edge `loop` started. -/
  | advance (loop : EdgeId) (key : Option String) (value : String) (body next : BlockId)
  | switch (subject : Expr) (cases : List SwitchCase) (next : BlockId)

namespace EdgeKind

/-- The blocks that the edge leads to, in order. -/
def targets : EdgeKind → List BlockId
  | .jump target => [target]
  | .branch _ ifTrue ifFalse => [ifTrue, ifFalse]
  | .tryCatch body catches finally? next =>
    body :: (catches.map (·.target) ++ finally?.toList ++ [next])
  | .enumerate _ target => [target]
  | .advance _ _ _ body next => [body, next]
  | .switch _ cases next => cases.map (·.target) ++ [next]

/-- Every block that the edge leads to is visited, part by part of the edge, and a state handed on
from one visit to the next. -/
def walk {σ : Type} (visit : σ → BlockId → σ) (state : σ) : EdgeKind → σ
  | .jump target => visit state target
  | .branch _ ifTrue ifFalse => visit (visit state ifTrue) ifFalse
  | .tryCatch body catches finally? next =>
    let caught := catches.foldl (fun state clause => visit state clause.target) (visit state body)
    let completed :=
      match finally? with
      | some completion => visit caught completion
      | none => caught
    visit completed next
  | .enumerate _ target => visit state target
  | .advance _ _ _ body next => visit (visit state body) next
  | .switch _ cases next => visit (cases.foldl (fun state c => visit state c.target) state) next

/-- The edge guards a body with handlers. -/
def isTry : EdgeKind → Bool
  | .tryCatch .. => true
  | _ => false

/-- The first clause of a guarded body that handles a type of that name. -/
def handlingCatch? (kind : EdgeKind) (typeName : String) : Option CatchClause :=
  match kind with
  | .tryCatch _ catches _ _ =>
    catches.find? fun clause => clause.type.spelledBy typeName || clause.catchesAnything
  | _ => none

end EdgeKind

/-- An edge: its number, and the block that it ends. -/
structure Edge where
  id : UInt32
  source : BlockId
  kind : EdgeKind

/-- A block: its number, its statements, and the edge that ends it. -/
structure Block where
  id : UInt32
  statements : List Statement
  outgoing : Option EdgeId

namespace Block

/-- A block without statements or end. -/
def empty (id : UInt32) : Block := ⟨id, [], none⟩

end Block

/-- The blocks that a search has found, in order of discovery, and those of them that wait to be
expanded. -/
structure Discovery where
  found : List BlockId
  waiting : List BlockId

namespace Discovery

def empty : Discovery := ⟨[], []⟩

/-- A block is met, perhaps not for the first time. -/
def discover (discovery : Discovery) (b : BlockId) : Discovery :=
  if discovery.found.contains b then discovery
  else ⟨discovery.found ++ [b], discovery.waiting ++ [b]⟩

end Discovery

/-- The blocks and edges of a routine. -/
structure Graph where
  blocks : Array Block
  edges : Array Edge

namespace Graph

/-- The block where control enters. -/
def start : BlockId := 0

/-- The block where control leaves; it never has an edge. -/
def exit : BlockId := 1

/-- The graph of the start block and the exit block. -/
def new : Graph := ⟨#[Block.empty 0, Block.empty 1], #[]⟩

def outgoing? (graph : Graph) (b : BlockId) : Option Edge :=
  match graph.blocks[b]? with
  | some block => block.outgoing.bind fun e => graph.edges[e]?
  | none => none

/-- The blocks that control may reach directly from a block, in the order of its edge. -/
def successors (graph : Graph) (b : BlockId) : List BlockId :=
  match graph.outgoing? b with
  | some edge => edge.kind.targets
  | none => []

def incoming (graph : Graph) (b : BlockId) : List EdgeId :=
  (graph.edges.toList.filter (·.kind.targets.contains b)).map (·.id.toNat)

/-- A step of a search that has found some blocks and is to expand one: the blocks to which its edge
leads are discovered. -/
def expand (graph : Graph) (discovery : Discovery) (b : BlockId) : Discovery :=
  match graph.outgoing? b with
  | some edge => edge.kind.walk Discovery.discover discovery
  | none => discovery

/-- A search that goes on with the first block that waits; none if this block does not exist. -/
def search (graph : Graph) : Nat → Discovery → Option (List BlockId)
  | _, ⟨found, []⟩ => some found
  | 0, ⟨found, _⟩ => some found
  | steps + 1, ⟨found, b :: waiting⟩ =>
    if b < graph.blocks.size then search graph steps (graph.expand ⟨found, waiting⟩ b)
    else none

/-- The blocks that control can reach, the nearer first; none if an edge leads to a block that
does not exist. Every step expands another block, so as many steps as there are blocks, and one
that meets a missing block, are enough. -/
def reachable? (graph : Graph) : Option (List BlockId) :=
  graph.search (graph.blocks.size + 1) (Discovery.empty.discover start)

/-- The reachable blocks, the exit apart, that no edge ends. -/
def unterminated? (graph : Graph) : Option (List BlockId) :=
  graph.reachable?.map fun blocks =>
    blocks.filter fun b => b != exit && (graph.outgoing? b).isNone

end Graph

end StackScript
