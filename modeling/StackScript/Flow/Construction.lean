import StackScript.Flow.Graph

/-!
# Building flow graphs

A graph grows by new blocks, new statements and new edges. A step that would break the graph is
refused with a defect and changes nothing: in particular a block gets only one edge, the exit gets
none, and the parts of a `try` stand in source order behind the block that enters it.

## Main definitions

* `GraphDefect`, `GraphDefect.message?`: why a step is refused
* `Graph.addBlock`, `Graph.pushStatement`, `Graph.connect`: the steps
* `BuildStep`: a step as data
* `Graph.apply`, `Graph.build`: one step, and all steps of a new graph
-/

namespace StackScript

/-- Why a step in building a graph is refused. -/
inductive GraphDefect where
  | noSuchBlock (b : BlockId)
  | noSuchEdge (e : EdgeId)
  /-- An edge leads to a block that does not exist. -/
  | danglingEdge
  | equalTargets (source : BlockId)
  | outOfOrder (source : BlockId) (order : List BlockId)
  | bodyBeforeEntry (body source : BlockId)
  | notAdvanceBlock (b : BlockId) (e : EdgeId)
  | notALoop (e : EdgeId)
  | twoDefaults (source : BlockId)
  | exitTerminated
  | alreadyTerminated (b : BlockId) (e : EdgeId)
  deriving Repr, DecidableEq

/-- A block as messages name it. -/
def showBlock (b : BlockId) : String := "B" ++ toString b

/-- An edge as messages name it. -/
def showEdge (e : EdgeId) : String := "E" ++ toString e

namespace GraphDefect

/-- The text of a defect; none for a block or edge that does not exist. -/
def message? : GraphDefect → Option String
  | .noSuchBlock _ => none
  | .noSuchEdge _ => none
  | .danglingEdge => none
  | .equalTargets source =>
    some ("conditional edge from " ++ showBlock source ++ " needs distinct targets")
  | .outOfOrder source order =>
    some ("try/catch from " ++ showBlock source ++ " has blocks out of source order: [" ++
      ", ".intercalate (order.map fun b => "BlockId(" ++ toString b ++ ")") ++ "]")
  | .bodyBeforeEntry body source =>
    some ("try/catch body " ++ showBlock body ++ " must follow its entry block " ++
      showBlock source)
  | .notAdvanceBlock b e =>
    some ("move-next block " ++ showBlock b ++ " is not the target of " ++ showEdge e)
  | .notALoop e => some (showEdge e ++ " is not a foreach enumeree edge")
  | .twoDefaults source =>
    some ("switch from " ++ showBlock source ++ " has more than one default case")
  | .exitTerminated => some "the exit block cannot have a terminator"
  | .alreadyTerminated b e =>
    some (showBlock b ++ " already terminated by " ++ showEdge e)

end GraphDefect

/-- Every number is smaller than the next. -/
def increasing : List Nat → Bool
  | a :: b :: rest => a < b && increasing (b :: rest)
  | _ => true

namespace EdgeKind

/-- What is wrong with an edge from a block, whatever ends that block already. -/
def defect? (graph : Graph) (source : BlockId) : EdgeKind → Option GraphDefect
  | .branch _ ifTrue ifFalse => if ifTrue = ifFalse then some (.equalTargets source) else none
  | kind@(.tryCatch body ..) =>
    if !increasing kind.targets then some (.outOfOrder source kind.targets)
    else if source < body then none
    else some (.bodyBeforeEntry body source)
  | .advance loop .. =>
    match graph.edges[loop]? with
    | none => some (.noSuchEdge loop)
    | some ⟨_, _, .enumerate _ target⟩ =>
      if target = source then none else some (.notAdvanceBlock source loop)
    | some _ => some (.notALoop loop)
  | .switch _ cases _ =>
    if cases.countP (·.isDefault) ≤ 1 then none else some (.twoDefaults source)
  | .jump _ => none
  | .enumerate .. => none

end EdgeKind

namespace Graph

/-- A new block; its number is the number of blocks before. -/
def addBlock (graph : Graph) : Graph :=
  { graph with blocks := graph.blocks.push (Block.empty (.ofNat graph.blocks.size)) }

/-- A statement at the end of a block. -/
def pushStatement (graph : Graph) (b : BlockId) (statement : Statement) :
    Except GraphDefect Graph :=
  match graph.blocks[b]? with
  | none => .error (.noSuchBlock b)
  | some block =>
    .ok { graph with
      blocks := graph.blocks.setIfInBounds b
        { block with statements := block.statements ++ [statement] } }

/-- An edge at the end of a block that has none; its number is the number of edges before. -/
def install (graph : Graph) (source : BlockId) (kind : EdgeKind) : Except GraphDefect Graph :=
  match graph.blocks[source]? with
  | none => .error (.noSuchBlock source)
  | some block =>
    if source = exit then .error .exitTerminated
    else match block.outgoing with
      | some e => .error (.alreadyTerminated source e)
      | none =>
        .ok { blocks := graph.blocks.setIfInBounds source
                { block with outgoing := some graph.edges.size }
              edges := graph.edges.push ⟨.ofNat graph.edges.size, source, kind⟩ }

/-- A sound edge at the end of a block that has none. -/
def connect (graph : Graph) (source : BlockId) (kind : EdgeKind) : Except GraphDefect Graph :=
  match kind.defect? graph source with
  | some defect => .error defect
  | none => graph.install source kind

end Graph

/-- A step in building a graph. -/
inductive BuildStep where
  | addBlocks (count : Nat)
  | pushStatement (b : BlockId) (statement : Statement)
  | connect (source : BlockId) (kind : EdgeKind)

namespace Graph

/-- As many new blocks as given. -/
def addBlocks (graph : Graph) : Nat → Graph
  | 0 => graph
  | count + 1 => graph.addBlock.addBlocks count

/-- A graph behind one more step. -/
def apply (graph : Graph) : BuildStep → Except GraphDefect Graph
  | .addBlocks count => .ok (graph.addBlocks count)
  | .pushStatement b statement => graph.pushStatement b statement
  | .connect source kind => graph.connect source kind

/-- The graph of a list of steps, if none is refused. -/
def build (steps : List BuildStep) : Except GraphDefect Graph := steps.foldlM apply new

end Graph

end StackScript
