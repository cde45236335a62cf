import StackScript.Proofs.Evaluation.Edges

/-!
# Walks through graphs

A graph is walked block by block: the statements of a block are executed in order, and then its edge
says where the walk goes on. The walk ends at a block that no edge ends, with the result of the
routine, or at an error.

## Main definitions

* `Graph.turn`: what a block does
* `Course`: a graph in a world, with the numbers of its call sites
* `Course.Walks`, `Course.Finishes`: walks, and walks to the end

## Main results

* `always_edge`: an edge goes on at one of its targets
* `runFrom_turn_of_ending`, `runFrom_turn_of_open`: a block, part by part
-/

namespace StackScript

/-! ## What blocks do -/

/-- What comes behind a block. -/
inductive Turn where
  | goesOn (target : BlockId) (loops : Loops)
  /-- The end of the routine. -/
  | returns (value : Value)

namespace Graph

def statements (graph : Graph) (b : BlockId) : List Statement :=
  (graph.blocks[b]?.map (·.statements)).getD []

/-- The edge that ends a block, with its number. -/
def ending? (graph : Graph) (b : BlockId) : Option (EdgeId × Edge) := do
  let e ← graph.blocks[b]?.bind (·.outgoing)
  let edge ← graph.edges[e]?
  return (e, edge)

theorem EndsBlock.ending {graph : Graph} {b : BlockId} {e : EdgeId} {edge : Edge}
    (h : graph.EndsBlock b e edge) : graph.ending? b = some (e, edge) := by
  simp [ending?, h.1, h.2]

variable {σ : Type} (world : World σ) (env : BodyEnv) (graph : Graph)

/-- What a block does: its statements and then its edge. Without an edge it returns the result of the
routine. -/
def turn (loops : Loops) (b : BlockId) : Numbered (Eval σ Turn) := do
  let executed ← meaningStatements world env (graph.statements b)
  match graph.ending? b with
  | some (e, edge) => do
    let way ← edge.kind.meaning world env e loops
    return do
      executed
      let (target, loops) ← way
      return .goesOn target loops
  | none =>
    return do
      executed
      return .returns (← Eval.vars).result.toValue

/-- The number of the next call site behind blocks that are written in some order. -/
def sitesBehind (n : SiteId) (order : List BlockId) : SiteId :=
  order.foldl (fun n b => ((graph.turn world env .idle b).runFrom n).2) n

end Graph

/-! ## Walks -/

/-- A graph in a world. Its blocks draw the numbers of their call sites in some order. -/
structure Course (σ : Type) where
  world : World σ
  env : BodyEnv
  graph : Graph
  order : List BlockId
  /-- The number of the first call site. -/
  firstSite : SiteId

/-- In front of a block. -/
structure Position (σ : Type) where
  block : BlockId
  vars : Vars
  loops : Loops
  state : σ

namespace Course

variable {σ : Type} (c : Course σ)

/-- The number of the first call site of a block. -/
def site (b : BlockId) : SiteId :=
  c.graph.sitesBehind c.world c.env c.firstSite (c.order.takeWhile (· ≠ b))

/-- What a block does at a position. -/
def turn (p : Position σ) : Option (Except DispatchError Turn × Vars × σ) :=
  ((c.graph.turn c.world c.env p.loops p.block).runFrom (c.site p.block)).1.outcome p.vars p.state

/-- A walk from a position to another, with the blocks in between and the states of the world in
front of them. -/
inductive Walks : Position σ → List (BlockId × σ) → Position σ → Prop where
  | stays {p} : Walks p [] p
  | goesOn {p t loops vars s visited p'} : c.turn p = some (.ok (.goesOn t loops), vars, s) →
      Walks ⟨t, vars, loops, s⟩ visited p' → Walks p ((p.block, p.state) :: visited) p'

/-- A walk from a position to the end, with the blocks on the way, and the result and the state of
the world in the end. -/
inductive Finishes :
    Position σ → List (BlockId × σ) → Except DispatchError Value → σ → Prop where
  | returns {p value vars s} : c.turn p = some (.ok (.returns value), vars, s) →
      Finishes p [(p.block, p.state)] (.ok value) s
  | fails {p error vars s} : c.turn p = some (.error error, vars, s) →
      Finishes p [(p.block, p.state)] (.error error) s
  | goesOn {p t loops vars s visited result s'} :
      c.turn p = some (.ok (.goesOn t loops), vars, s) →
      Finishes ⟨t, vars, loops, s⟩ visited result s' →
      Finishes p ((p.block, p.state) :: visited) result s'

variable {c} {p p' : Position σ} {visited : List (BlockId × σ)}

theorem Walks.block (h : c.Walks p visited p') : ∀ first ∈ visited.head?, first.1 = p.block := by
  cases h with
  | stays => exact nofun
  | goesOn => rintro _ ⟨⟩; rfl

theorem Finishes.block {result : Except DispatchError Value} {s : σ}
    (h : c.Finishes p visited result s) : ∀ first ∈ visited.head?, first.1 = p.block := by
  cases h <;> rintro _ ⟨⟩ <;> rfl

end Course

/-! ## Where edges go on -/

section Targets

variable {σ : Type} {world : World σ} {env : BodyEnv}

theorem always_pick (subject : Value) (cases : List SwitchCase) (n : SiteId) :
    (Eval.pick subject ((meaningCases world env cases).runFrom n).1).Always fun target =>
      ∀ t ∈ target, t ∈ cases.map (·.target) := by
  induction cases generalizing n with
  | nil => exact .pure fun t ht => by cases ht
  | cons case rest ih =>
    have others (n : SiteId) : (Eval.pick subject ((meaningCases world env rest).runFrom n).1).Always
        fun target => ∀ t ∈ target, t ∈ (case :: rest).map (·.target) := fun vars s x w hx t ht =>
      List.mem_cons_of_mem _ (ih n vars s x w hx t ht)
    rw [meaningCases]
    cases case.value with
    | none => exact others n
    | some value =>
      refine Eval.Always.trivial.bind fun x _ => ?_
      split
      · refine .pure fun t ht => ?_
        cases ht
        exact List.mem_cons_self
      · exact others _

/-- **An edge goes on** at one of its targets. -/
theorem always_edge (kind : EdgeKind) (e : EdgeId) (loops : Loops) (n : SiteId) :
    ((kind.meaning world env e loops).runFrom n).1.Always fun way => way.1 ∈ kind.targets := by
  cases kind with
  | jump target => exact .pure (List.mem_singleton_self target)
  | branch condition ifTrue ifFalse =>
    refine Eval.Always.trivial.bind fun x _ => .pure ?_
    dsimp only
    split <;> simp [EdgeKind.targets]
  | tryCatch => exact .pure List.mem_cons_self
  | enumerate subject target =>
    refine Eval.Always.trivial.bind fun x _ => ?_
    unfold Eval.enumerate
    split
    · rintro vars s y w ⟨⟩
    · exact .pure (List.mem_singleton_self target)
  | advance loop key value body next =>
    change (Eval.advance env loops loop key value body next).Always _
    unfold Eval.advance
    split
    · rintro vars s y w ⟨⟩
    · split
      · exact .pure (List.mem_cons_of_mem _ List.mem_cons_self)
      · exact Eval.Always.trivial.bind fun _ _ => .pure List.mem_cons_self
  | switch subject cases next =>
    refine Eval.Always.bind (P := (· ∈ (EdgeKind.switch subject cases next).targets)) ?_
      fun target ht => .pure ht
    refine Eval.Always.trivial.bind fun x _ => (always_pick x.toValue cases _).bind fun t ht => ?_
    refine .pure ?_
    cases t with
    | none => exact otherwise_mem_targets subject cases next
    | some t => exact List.mem_append_left _ (ht t rfl)

end Targets

/-! ## Blocks, part by part -/

section Parts

variable {σ : Type} {world : World σ} {env : BodyEnv} {graph : Graph} {b : BlockId} {e : EdgeId}
  {edge : Edge}

/-- A block that an edge ends: the statements, and then the edge. -/
theorem runFrom_turn_of_ending (h : graph.ending? b = some (e, edge)) (loops : Loops) (n : SiteId) :
    (graph.turn world env loops b).runFrom n =
      let executed := (meaningStatements world env (graph.statements b)).runFrom n
      let way := (edge.kind.meaning world env e loops).runFrom executed.2
      (executed.1 >>= fun _ => way.1 >>= fun (target, loops) => pure (.goesOn target loops),
        way.2) := by
  simp only [Graph.turn, h]
  rfl

/-- A block that no edge ends: the statements, and then the result of the routine. -/
theorem runFrom_turn_of_open (h : graph.ending? b = none) (loops : Loops) (n : SiteId) :
    (graph.turn world env loops b).runFrom n =
      let executed := (meaningStatements world env (graph.statements b)).runFrom n
      (executed.1 >>= fun _ => Eval.vars >>= fun vars => pure (.returns vars.result.toValue),
        executed.2) := by
  simp only [Graph.turn, h]
  rfl

end Parts

end StackScript
