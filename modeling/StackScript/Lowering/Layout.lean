import StackScript.Lowering.Expr

/-!
# Laying a flow graph out as code

Blocks are placed one behind the other, starting from the start block. The body and every handler
of a `try` is a scope that owns the blocks whose numbers lie in its range; a scope places only
these, so that its code is in one piece, and hands the other targets of its jumps to the scope
around it. The exit block comes last.

A jump inside a scope is a plain one, and is taken back if its target comes next. A jump out of a
body or a `catch` handler is a `leave`. A `finally` handler ends with `endFinally`, and nothing
else leaves it.

## Main definitions

* `BlockRange`, `protectedRanges`, `innermost?`: which blocks belong together
* `Scope`, `route`: how a jump to a block is made
* `placeBlock`, `drain`: placing
* `layOut`: the code of a graph, with its blocks and protected regions
-/

namespace StackScript

open Emit

/-! ## Ranges of blocks -/

/-- The blocks from one number to another, the last one excluded. -/
structure BlockRange where
  first : BlockId
  past : BlockId
  deriving Repr, DecidableEq

namespace BlockRange

def contains (range : BlockRange) (b : BlockId) : Bool := range.first ≤ b && b < range.past

/-- The other range lies in this one. -/
def includes (range other : BlockRange) : Bool :=
  range.first ≤ other.first && other.past ≤ range.past

def size (range : BlockRange) : Nat := range.past - range.first

end BlockRange

/-- The ranges between neighbours in a list of bounds. -/
def rangesBetween : List BlockId → List BlockRange
  | a :: b :: rest => ⟨a, b⟩ :: rangesBetween (b :: rest)
  | _ => []

/-- The range of the body and of every handler of every `try`, in the order of the edges. -/
def protectedRanges (graph : Graph) : List BlockRange :=
  graph.edges.toList.flatMap fun edge =>
    if edge.kind.isTry then rangesBetween edge.kind.targets else []

/-- The smaller of two ranges, the first if they are of one size. -/
def smallerRange (a b : BlockRange) : BlockRange := if b.size < a.size then b else a

/-- The smallest range that a block is in; of several the first. -/
def innermost? (ranges : List BlockRange) (b : BlockId) : Option BlockRange :=
  match ranges.filter (·.contains b) with
  | [] => none
  | range :: rest => some (rest.foldl smallerRange range)

/-! ## Scopes -/

/-- What a scope is the code of. -/
inductive ScopeKind where
  | root
  | body
  | catch
  /-- Ends by going on at the block behind the whole `try`. -/
  | finally (next : BlockId)
  deriving Repr, DecidableEq

/-- A scope and the blocks that it owns; the root owns those in no range. -/
structure Scope where
  kind : ScopeKind
  range : Option BlockRange
  deriving Repr, DecidableEq

namespace Scope

/-- The scope of the blocks that are in no range. -/
def root : Scope := ⟨.root, none⟩

end Scope

/-- How a jump is made. -/
inductive Route where
  /-- To a block of the same scope. -/
  | within
  /-- To the exit, from outside every range. -/
  | exit
  /-- Out of a body or a `catch` handler. -/
  | leave
  /-- To the end of a `finally` handler. -/
  | endFinally
  deriving Repr, DecidableEq

/-- The target lies in a range inside the scope, which only its `try` can enter. -/
def Scope.encloses (scope : Scope) (range : BlockRange) : Bool :=
  match scope.range with
  | none => true
  | some own => own.includes range

/-- How a jump out of a scope is made. -/
def Scope.routeOut (scope : Scope) (target : BlockId) : Except Violation Route :=
  match scope.kind with
  | .root => if target = Graph.exit then .ok .exit else .error (.branchEntersRegion target)
  | .body => .ok .leave
  | .catch => .ok .leave
  | .finally next => if target = next then .ok .endFinally else .error (.branchLeavesFinally target)

/-- How a jump from a scope to a block is made. The exit is in no scope. -/
def route (ranges : List BlockRange) (scope : Scope) (target : BlockId) : Except Violation Route :=
  if target = Graph.exit then scope.routeOut target
  else
    let range := innermost? ranges target
    if range = scope.range then .ok .within
    else
      match range with
      | some range =>
        if scope.encloses range then .error (.branchEntersRegion target)
        else scope.routeOut target
      | none => scope.routeOut target

/-! ## The layout so far -/

/-- What is fixed while a graph is laid out. -/
structure LayoutEnv where
  body : BodyEnv
  graph : Graph
  ranges : List BlockRange

/-- The layout so far. The queue and the escapes are those of the current scope: blocks still to be
placed in it, and targets that are left to the scope around it. -/
structure LayoutState where
  draft : Draft
  labels : List (BlockId × Label)
  placed : List BlockId
  blockOffsets : Array (BlockId × Nat)
  regions : Array Region
  enumerators : List (EdgeId × LocalId)
  queue : List BlockId
  escapes : List BlockId
  exitTargeted : Bool

namespace LayoutState

/-- Nothing placed yet; the start block is the first to come. -/
def start (draft : Draft) : LayoutState where
  draft := draft
  labels := []
  placed := []
  blockOffsets := #[]
  regions := #[]
  enumerators := []
  queue := [Graph.start]
  escapes := []
  exitTargeted := false

end LayoutState

/-- A step of the layout. -/
abbrev Arrange := ExceptT Cause (StateM LayoutState)

namespace Arrange

/-- A step that writes code. -/
def write {α : Type} (step : Emit α) : Arrange α :=
  ExceptT.mk fun state =>
    let (result, draft) := step.run state.draft
    (result, { state with draft })

/-- The offset of the next instruction. The code up to it is kept. -/
def pinnedOffset : Arrange Nat := write (withAssembler fun asm => (asm.offset, asm.pin))

/-- The label of a block, new on first use. -/
def blockLabel (b : BlockId) : Arrange Label := do
  match (← get).labels.lookup b with
  | some l => pure l
  | none =>
    let l ← write defineLabel
    modify fun state => { state with labels := (b, l) :: state.labels }
    pure l

def isPlaced (b : BlockId) : Arrange Bool := return (← get).placed.contains b

/-- Control does not reach the end of the code. -/
def endsInTransfer : Arrange Bool := return !(← get).draft.asm.reachable

/-- Stops because a rule is broken. -/
def violate {α : Type} (violation : Violation) : Arrange α := throw (.invariant violation)

/-- How a jump to a block is made. -/
def routeTo (env : LayoutEnv) (scope : Scope) (target : BlockId) : Arrange Route :=
  match route env.ranges scope target with
  | .ok r => pure r
  | .error violation => violate violation

/-- The block is to be placed before all others of the scope, unless it is placed already. -/
def queueFirst (b : BlockId) : Arrange Unit := do
  if !(← isPlaced b) then
    modify fun state => { state with queue := b :: state.queue }

/-- The block is to be placed after all others of the scope, unless it is placed already. -/
def queueLast (b : BlockId) : Arrange Unit := do
  if !(← isPlaced b) then
    modify fun state => { state with queue := state.queue ++ [b] }

/-- The exit is to be placed. -/
def targetExit : Arrange Unit := modify fun state => { state with exitTargeted := true }

/-- The block is left to the scope around this one. -/
def noteEscape (target : BlockId) : Arrange Unit :=
  if target = Graph.exit then targetExit
  else modify fun state => { state with escapes := state.escapes ++ [target] }

end Arrange

open Arrange

/-! ## Jumps -/

/-- The block becomes part of the layout; no jump is written. -/
def enqueue (env : LayoutEnv) (scope : Scope) (target : BlockId) : Arrange Unit := do
  match ← routeTo env scope target with
  | .within => queueLast target
  | .exit => targetExit
  | .leave => noteEscape target
  | .endFinally => pure ()

/-- Goes on at a block. A block of the same scope that is not placed yet comes next. Behind a
`throw` nothing is written. -/
def transfer (env : LayoutEnv) (scope : Scope) (target : BlockId) : Arrange Unit := do
  if ← endsInTransfer then enqueue env scope target
  else
    let l ← blockLabel target
    match ← routeTo env scope target with
    | .within =>
      write (branch .always l)
      queueFirst target
    | .exit =>
      targetExit
      write (branch .always l)
    | .leave =>
      noteEscape target
      write (branch .leave l)
    | .endFinally => write (emit .endFinally)

/-- Goes on at a block if the value on the stack is as asked, else behind. Only unconditional jumps
leave a scope, so there the jump is skipped in the other case. -/
def transferIf (env : LayoutEnv) (scope : Scope) (kind : BranchKind) (target : BlockId) :
    Arrange Unit := do
  let l ← blockLabel target
  match ← routeTo env scope target with
  | .within | .exit =>
    write (branch kind l)
    enqueue env scope target
  | .leave | .endFinally =>
    -- `leave` and `endFinally` have no condition of their own.
    let skip ← write defineLabel
    write (branch kind.negate skip)
    transfer env scope target
    write (mark skip)

/-! ## The ends of blocks -/

/-- Lays a nested scope out, and says which targets it leaves to the scope around it. -/
abbrev Enter := Scope → BlockId → Arrange (List BlockId)

/-- Binds the caught value to a variable, or drops it. -/
def bindCaught (env : LayoutEnv) (clause : CatchClause) : Emit Unit :=
  match clause.binding with
  | some name => storeVariable env.body name
  | none => emit .pop

/-- The `catch` handlers of a body; the last of them ends where `past` begins. -/
def placeCatches (env : LayoutEnv) (enter : Enter) (tryStart tryEnd : Nat) (past : BlockId) :
    List CatchClause → Arrange (List BlockId)
  | [] => pure []
  | clause :: rest => do
    let next := match rest with
      | following :: _ => following.target
      | [] => past
    let handlerStart ← pinnedOffset
    write do
      onAssembler (·.beginHandler 1)
      bindCaught env clause
    let escapes ← enter ⟨.catch, some ⟨clause.target, next⟩⟩ clause.target
    let handlerEnd ← pinnedOffset
    modify fun state => { state with
      regions := state.regions.push
        ⟨.catch clause.type, tryStart, tryEnd, handlerStart, handlerEnd⟩ }
    return escapes ++ (← placeCatches env enter tryStart tryEnd past rest)

/-- The `finally` handler of a body and its `catch` handlers. -/
def placeFinally (enter : Enter) (tryStart : Nat) (handler next : BlockId) : Arrange Unit := do
  let handlerStart ← pinnedOffset
  write (onAssembler (·.beginHandler 0))
  let _ ← enter ⟨.finally next, some ⟨handler, next⟩⟩ handler
  let handlerEnd ← pinnedOffset
  modify fun state => { state with
    regions := state.regions.push ⟨.finally, tryStart, handlerStart, handlerStart, handlerEnd⟩ }

/-- Targets that nested scopes have left to this one. A `leave` cannot end in the middle of a
`finally` handler's completion. -/
def enqueueEscapes (env : LayoutEnv) (scope : Scope) : List BlockId → Arrange Unit
  | [] => pure ()
  | target :: rest => do
    if (← routeTo env scope target) = .endFinally then violate (.leaveCrossesFinally target)
    enqueue env scope target
    enqueueEscapes env scope rest

/-- A protected body with its handlers. -/
def placeTry (env : LayoutEnv) (enter : Enter) (scope : Scope) (body : BlockId)
    (catches : List CatchClause) (finally? : Option BlockId) (next : BlockId) : Arrange Unit := do
  let past := finally?.getD next
  let firstHandler := match catches with
    | clause :: _ => clause.target
    | [] => past
  -- A pinned offset on either side keeps the code of the body apart from its surroundings: no
  -- jump before it is taken back across the boundary.
  let tryStart ← pinnedOffset
  let fromBody ← enter ⟨.body, some ⟨body, firstHandler⟩⟩ body
  let tryEnd ← pinnedOffset
  let fromCatches ← placeCatches env enter tryStart tryEnd past catches
  match finally? with
  | some handler => placeFinally enter tryStart handler next
  | none => pure ()
  -- No target escapes from a `finally` handler: its only way out is `endFinally`.
  enqueueEscapes env scope (fromBody ++ fromCatches)
  enqueue env scope next

/-- The slot of a loop's enumerator, new on first use. -/
def enumeratorSlot (e : EdgeId) : Arrange LocalId := do
  match (← get).enumerators.lookup e with
  | some slot => pure slot
  | none =>
    let slot ← write (withSlots (·.enumerator))
    modify fun state => { state with enumerators := (e, slot) :: state.enumerators }
    pure slot

/-- The cases of a switch whose subject is in a slot. -/
def placeCases (env : LayoutEnv) (scope : Scope) (subject : LocalId) :
    List SwitchCase → Arrange Unit
  | [] => pure ()
  | c :: rest => do
    match c.value with
    | none => pure ()
    | some value =>
      write do
        emit (.loadLocal subject)
        emitValue env.body value
        emit (.binary .eq)
      transferIf env scope .ifTrue c.target
    placeCases env scope subject rest

/-- The edge that ends a block, as code. -/
def placeEdge (env : LayoutEnv) (enter : Enter) (scope : Scope) (e : EdgeId) (edge : Edge) :
    Arrange Unit :=
  match edge.kind with
  | .jump target => transfer env scope target
  | .branch condition ifTrue ifFalse => do
    write (emitValue env.body condition)
    transferIf env scope .ifFalse ifFalse
    transfer env scope ifTrue
  | .tryCatch body catches finally? next => placeTry env enter scope body catches finally? next
  | .enumerate subject target => do
    write do
      emitValue env.body subject
      emit .getEnumerator
    let slot ← enumeratorSlot e
    write (emit (.storeLocal slot))
    transfer env scope target
  | .advance loop key value body next => do
    match (← get).enumerators.lookup loop with
    | none => violate (.enumeratorNotAcquired edge.source loop)
    | some slot =>
      write do
        emit (.loadLocal slot)
        emit .advance
      transferIf env scope .ifFalse next
      write do
        emit (.loadLocal slot)
        emit .enumeratorValue
        storeVariable env.body value
        match key with
        | some key =>
          emit (.loadLocal slot)
          emit .enumeratorKey
          storeVariable env.body key
        | none => pure ()
      transfer env scope body
  | .switch subject cases next => do
    let slot ← write do
      emitValue env.body subject
      let slot ← scratch
      emit (.storeLocal slot)
      pure slot
    placeCases env scope slot cases
    write (release slot)
    -- A subject that equals no case goes on behind the switch if there is no default.
    let otherwise := (cases.find? (·.isDefault)).map (·.target)
    transfer env scope (otherwise.getD next)
    enqueue env scope next

/-! ## Blocks -/

/-- The start of a block: the jump to it that ends the code, if there is one, is taken back. -/
def beginBlock (b : BlockId) : Arrange Unit := do
  modify fun state => { state with placed := b :: state.placed }
  let l ← blockLabel b
  write (onAssembler fun asm => (asm.elide l).mark l)
  let offset ← pinnedOffset
  modify fun state => { state with blockOffsets := state.blockOffsets.push (b, offset) }

/-- The statements of a block leave nothing on the stack. -/
def placeStatements (env : LayoutEnv) (b : BlockId) : Arrange Unit := do
  match env.graph.blocks[b]? with
  | none => throw (.missingBlock b)
  | some block =>
    write (emitStatements env.body block.statements)
    let depth := (← get).draft.asm.depth
    if depth ≠ 0 then violate (.valuesLeft b depth)

/-- A block with its end. Only blocks of the scope are placed in it. -/
def placeBlock (env : LayoutEnv) (enter : Enter) (scope : Scope) (b : BlockId) : Arrange Unit := do
  if innermost? env.ranges b ≠ scope.range then violate (.outsideRegion b)
  beginBlock b
  placeStatements env b
  match env.graph.blocks[b]?.bind (·.outgoing) with
  | none => violate (.noOutgoingEdge b)
  | some e =>
    match env.graph.edges[e]? with
    | none => violate (.noOutgoingEdge b)
    | some edge => placeEdge env enter scope e edge

/-- A nested scope that starts at a block, drained of its blocks. -/
def enterScope (drained : Scope → Arrange Unit) : Enter := fun scope seed => do
  if ← isPlaced seed then violate (.regionEnteredTwice seed)
  let outer ← get
  set { outer with queue := [seed], escapes := [] }
  drained scope
  let inner ← get
  set { inner with queue := outer.queue, escapes := outer.escapes }
  pure inner.escapes

/-- Places the blocks of a scope until none is left. The first argument bounds the number of
blocks taken from the queues. -/
def drain (env : LayoutEnv) : Nat → Scope → Arrange Unit
  | 0, _ => do
    if !(← get).queue.isEmpty then violate .scopeLeftOpen
  | steps + 1, scope => do
    match (← get).queue with
    | [] => pure ()
    | b :: rest =>
      modify fun state => { state with queue := rest }
      -- A block can be queued more than once; all but its first turn are empty.
      if !(← isPlaced b) then
        placeBlock env (enterScope (drain env steps)) scope b
      drain env steps scope

/-- The exit block returns the result, or null if none was set. -/
def placeExit (env : LayoutEnv) : Arrange Unit := do
  beginBlock Graph.exit
  placeStatements env Graph.exit
  write do
    match (← get).asm.slots.result? with
    | some slot => emit (.loadLocal slot)
    | none => emit .loadNull
    emit .return

/-- The number of targets of all edges. -/
def targetCount (graph : Graph) : Nat :=
  (graph.edges.toList.map fun edge => edge.kind.targets.length).foldr (· + ·) 0

/-- Enough steps to drain all queues: a target of an edge is queued at most twice by its own block,
once as the seed of a scope, and once where an escape ends. -/
def drainSteps (graph : Graph) : Nat := 4 * (targetCount graph + 1)

/-- A graph as code. -/
structure Layout where
  assembled : Assembled
  /-- The placed blocks in order, with the offsets where they start. -/
  blockOffsets : List (BlockId × Nat)
  /-- The protected regions, the inner ones first. -/
  regions : List Region

/-- All blocks of a graph: the root scope, then the exit if something goes there. -/
def placeAll (env : LayoutEnv) : Arrange Unit := do
  drain env (drainSteps env.graph) Scope.root
  if (← get).exitTargeted then placeExit env

/-- Lays a graph out behind the code that a draft already has. -/
def layOut (body : BodyEnv) (graph : Graph) (draft : Draft) : Except Cause Layout × Draft :=
  let (result, state) := (placeAll ⟨body, graph, protectedRanges graph⟩).run (.start draft)
  let layout := do
    result
    let assembled ← state.draft.asm.finish body.settings.maxLocals
    pure ⟨assembled, state.blockOffsets.toList, state.regions.toList⟩
  (layout, state.draft)

end StackScript
