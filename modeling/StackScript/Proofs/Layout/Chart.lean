import StackScript.Proofs.Layout.Strokes

/-!
# The chart of a layout

A layout as a machine that goes on by single steps, with a stack of the parts of `try`s that it is
in. Beside the layout it keeps a chart: the block and the scopes that each instruction belongs to,
and the parts that have been laid out, with the offsets where they start and end. What holds of a
layout is shown for each kind of step once.

## Main definitions

* `Part`, `EdgeKind.parts`: the body of a `try` and its handlers
* `Stage`, `Level`: a part in the code, and what waits around it
* `Chart`, `Chart.Step`: a layout with its chart, and its steps

## Main results

* `steps_of_lays`: every part of a layout goes by steps
* `steps_of_ends_placeAll`: so does a layout of all blocks
-/

namespace StackScript

open Emit Arrange

/-! ## Parts -/

/-- The body of a `try` or one of its handlers. -/
structure Part where
  kind : ScopeKind
  range : BlockRange
  /-- What the part handles; none for a body. -/
  handler : Option HandlerKind

namespace Part

/-- The scope that the part is the code of. -/
def scope (part : Part) : Scope := ⟨part.kind, some part.range⟩

/-- The first block of the part. -/
def seed (part : Part) : BlockId := part.range.first

end Part

/-- The `catch` handlers of a `try`; the last of them ends where `past` begins. -/
def catchParts (past : BlockId) : List CatchClause → List Part
  | [] => []
  | clause :: rest =>
    ⟨.catch, ⟨clause.target, catchEnd past rest⟩, some (.catch clause.type)⟩ ::
      catchParts past rest

/-- The `finally` handler of a `try`. -/
def finallyParts (next : BlockId) : Option BlockId → List Part
  | none => []
  | some handler => [⟨.finally next, ⟨handler, next⟩, some .finally⟩]

/-- The body of a `try`. -/
def bodyPart (body : BlockId) (catches : List CatchClause) (past : BlockId) : Part :=
  ⟨.body, ⟨body, catchEnd past catches⟩, none⟩

/-- The parts of a `try` in the order of the source, none for other edges. -/
def EdgeKind.parts : EdgeKind → List Part
  | .tryCatch body catches finally? next =>
    bodyPart body catches (finally?.getD next) ::
      (catchParts (finally?.getD next) catches ++ finallyParts next finally?)
  | _ => []

/-- The parts of the `try` that ends a block. -/
def Graph.parts (graph : Graph) (b : BlockId) : List Part :=
  match graph.outgoing? b with
  | some edge => edge.kind.parts
  | none => []

/-- Where the code ends that a handler protects: a `catch` handler protects the body, a `finally`
handler all that comes in front of it. -/
def HandlerKind.tryEnd (kind : HandlerKind) (bodyEnd handlerStart : Nat) : Nat :=
  match kind with
  | .catch _ => bodyEnd
  | .finally => handlerStart

/-! ## Stages -/

/-- A part that has been laid out. -/
structure Stretch where
  part : Part
  start : Nat
  stop : Nat

/-- A part of the `try` that ends a block, from the offset where its code starts. -/
structure Stage where
  source : BlockId
  /-- The scopes around the block. -/
  outer : Path
  part : Part
  start : Nat
  /-- The parts of the same `try` in front of it. -/
  done : List Stretch

namespace Stage

/-- The scopes around the code of the part. -/
def path (stage : Stage) : Path := ⟨stage.source, stage.part.scope⟩ :: stage.outer

/-- The part, laid out up to an offset. -/
def stretch (stage : Stage) (stop : Nat) : Stretch := ⟨stage.part, stage.start, stop⟩

/-- The next part of the same `try`, from the offset where this one ends. -/
def next (stage : Stage) (stop : Nat) (part : Part) : Stage :=
  { stage with part, start := stop, done := stage.done ++ [stage.stretch stop] }

/-- The region of a handler that ends at an offset. -/
def region? (stage : Stage) (stop : Nat) : Option Region :=
  match stage.part.handler, stage.done with
  | some kind, body :: _ =>
    some {
      kind
      tryStart := body.start
      tryEnd := kind.tryEnd body.stop stage.start
      handlerStart := stage.start
      handlerEnd := stop }
  | _, _ => none

end Stage

/-- A part that is being laid out, and what waits around it. -/
structure Level where
  stage : Stage
  /-- The parts of the same `try` that are to come. -/
  todo : List Part
  /-- The queue of the scope around. -/
  queue : List BlockId
  /-- The escapes of the scope around. -/
  escapes : List BlockId
  /-- The escapes of the parts in front of this one. -/
  carried : List BlockId

/-- The scopes around the innermost part. -/
def pathOf : List Level → Path
  | [] => []
  | level :: _ => level.stage.path

/-! ## Charts -/

/-- What an instruction belongs to: the block, if it is not the start of a handler, and the
scopes. -/
structure Cell where
  owner : Option BlockId
  path : Path

/-- The cells of the code, with one cell for all instructions from an offset on. -/
def fillCells (cells : Nat → Cell) (start : Nat) (cell : Cell) (n : Nat) : Cell :=
  if n < start then cells n else cell

/-- Where a layout is. -/
inductive Phase where
  /-- At the start of a scope. -/
  | head
  /-- In a block. -/
  | block (b : BlockId)
  /-- Behind a block. -/
  | behind
  deriving DecidableEq

namespace Phase

/-- No block is being written. -/
def isIdle : Phase → Bool
  | .block _ => false
  | .head | .behind => true

end Phase

/-- A layout with its chart. -/
structure Chart where
  state : LayoutState
  placements : List PlacedBlock
  cells : Nat → Cell
  phase : Phase
  /-- Labels from this number on are new in the block that is being written. -/
  base : Label
  levels : List Level
  /-- All parts whose code has started, the latest first. -/
  opened : List Stage
  /-- The parts that have been laid out, with the offsets where they end, the latest last. -/
  closed : List (Stage × Nat)

namespace LayoutState

/-- The end of a part, whose region is complete. -/
def closeStage (s : LayoutState) (stage : Stage) : LayoutState :=
  { s.mapAsm (·.pin) with
    regions := match stage.region? s.asm.offset with
      | some region => s.regions.push region
      | none => s.regions }

end LayoutState

/-- The code at the start of a handler: a `catch` handler takes the caught value. -/
inductive HandlerHead : HandlerKind → Assembler → Assembler → Prop where
  | catch {type asm slots i} : slots = asm.slots ∨ asm.slots.Serve slots →
      i.isPlain = true → i.isTransfer = false →
      HandlerHead (.catch type) asm
        (Assembler.emit { asm.pin.beginHandler 1 with slots } i)
  | finally {asm} : HandlerHead .finally asm (asm.pin.beginHandler 0)

namespace HandlerHead

variable {kind : HandlerKind} {a a' : Assembler}

theorem pinned (h : HandlerHead kind a a') : a'.pinned = a.code.size := by
  cases h with
  | «catch» => exact Assembler.pinned_emit
  | «finally» => rfl

theorem size_le (h : HandlerHead kind a a') : a.code.size ≤ a'.code.size := by
  cases h with
  | «catch» =>
    rw [Assembler.code_emit, Array.size_push]
    exact Nat.le_succ _
  | «finally» => exact Nat.le_refl _

end HandlerHead

namespace Chart

/-- The scopes around the next instruction. -/
def path (c : Chart) : Path := pathOf c.levels

/-- The scope of the next instruction. -/
def scope (c : Chart) : Scope := scopeOf c.path

/-- The start of a block, with the queue behind it. -/
def begin (c : Chart) (b : BlockId) (queue : List BlockId) : Chart :=
  let state := { c.state with queue }.beginBlock b
  { c with
    state
    placements := ⟨b, c.path⟩ :: c.placements
    cells := fillCells c.cells state.asm.offset ⟨some b, c.path⟩
    phase := .block b
    base := state.asm.labels.size }

/-- The start of a part. -/
def enter (c : Chart) (stage : Stage) (state : LayoutState) (level : Level) (rest : List Level) :
    Chart :=
  { c with
    state := state.openScope stage.part.seed
    cells := fillCells c.cells stage.start ⟨none, stage.path⟩
    phase := .head
    base := state.asm.labels.size
    levels := level :: rest
    opened := stage :: c.opened }

/-- The start of the body of the `try` that ends a block. -/
def openBody (c : Chart) (b : BlockId) (body : Part) (todo : List Part) : Chart :=
  let stage : Stage := ⟨b, c.path, body, c.state.asm.offset, []⟩
  c.enter stage (c.state.mapAsm (·.pin))
    ⟨stage, todo, c.state.queue, c.state.escapes, []⟩ c.levels

/-- From one part of a `try` to the next. -/
def turn (c : Chart) (level : Level) (rest : List Level) (part : Part) (todo : List Part)
    (draft : Draft) : Chart :=
  let stop := c.state.asm.offset
  let stage := level.stage.next stop part
  { c.enter stage { c.state.closeStage level.stage with draft }
      { level with stage, todo, carried := level.carried ++ c.state.escapes } rest with
    closed := c.closed ++ [(level.stage, stop)] }

/-- The end of a `try`, with the queue and the escapes of the scope around it. -/
def finish (c : Chart) (level : Level) (rest : List Level) (queue escapes : List BlockId)
    (exitTargeted : Bool) : Chart :=
  { c with
    state := { c.state.closeStage level.stage with queue, escapes, exitTargeted }
    phase := .behind
    base := c.state.asm.labels.size
    levels := rest
    closed := c.closed ++ [(level.stage, c.state.asm.offset)] }

/-- The targets that the parts of a `try` leave to the scope around it, at the end of the last
part. -/
def leavings (c : Chart) (level : Level) : List BlockId :=
  level.carried ++ if level.stage.part.scope.isLeft then c.state.escapes else []

/-- The steps of a layout. -/
inductive Step (env : LayoutEnv) : Chart → Chart → Prop where
  /-- A block of the queue that is placed already. -/
  | skip {c b rest} : c.state.queue = b :: rest → b ∈ c.state.placed →
      Step env c { c with state := { c.state with queue := rest } }
  | begin {c b rest} : c.phase.isIdle = true → c.state.queue = b :: rest →
      b ∉ c.state.placed → b ≠ Graph.exit → innermost? env.ranges b = c.scope.range →
      Step env c (c.begin b rest)
  /-- The exit block comes last. -/
  | exit {c} : c.phase.isIdle = true → c.levels = [] → Graph.exit ∉ c.state.placed →
      Step env c (c.begin Graph.exit c.state.queue)
  | stroke {c b state} : c.phase = .block b → Stroke env c.scope c.base c.state state →
      Step env c { c with state }
  /-- The end of a block whose edge opens no scope. -/
  | settle {c b} : c.phase = .block b → env.graph.parts b = [] →
      Step env c { c with phase := .behind }
  | openBody {c b body todo} : c.phase = .block b → env.graph.parts b = body :: todo →
      body.seed ∉ c.state.placed → Step env c (c.openBody b body todo)
  | turn {c level rest part todo kind asm nextSite} : c.phase.isIdle = true →
      c.levels = level :: rest → level.todo = part :: todo → part.handler = some kind →
      c.state.queue = [] → c.state.asm.reachable = false → part.seed ∉ c.state.placed →
      HandlerHead kind c.state.asm asm →
      Step env c (c.turn level rest part todo ⟨asm, nextSite⟩)
  /-- No target is left to a `finally` handler that ends there. -/
  | finish {c level rest queue escapes exitTargeted} : c.phase.isIdle = true →
      c.levels = level :: rest → level.todo = [] → c.state.queue = [] →
      c.state.asm.reachable = false →
      (∀ t ∈ c.leavings level, ∃ r, route env.ranges (scopeOf level.stage.outer) t = .ok r ∧
        r ≠ .endFinally ∧ (r = .leave → t = Graph.exit ∨ t ∈ escapes)) →
      (∀ t ∈ level.escapes, t ∈ escapes) →
      escapes = level.escapes ∨ (scopeOf level.stage.outer).isLeft = true →
      Step env c (c.finish level rest queue escapes exitTargeted)

/-- Any number of steps. -/
def Steps (env : LayoutEnv) : Chart → Chart → Prop := Relation.ReflTransGen (Step env)

/-- The chart of a layout that starts. -/
def start (draft : Draft) : Chart where
  state := .start draft
  placements := []
  cells := fun _ => ⟨none, []⟩
  phase := .behind
  base := 0
  levels := []
  opened := []
  closed := []

end Chart

/-! ## Layouts go by steps -/

section Steps

variable {env : LayoutEnv} {c c' : Chart} {s s' : LayoutState} {b : BlockId} {u : PUnit}

namespace Chart

theorem Steps.trans {c₁ : Chart} (h : Steps env c c₁) (h' : Steps env c₁ c') : Steps env c c' :=
  Relation.ReflTransGen.trans h h'

theorem Steps.tail {c₁ : Chart} (h : Steps env c c₁) (h' : Step env c₁ c') : Steps env c c' :=
  Relation.ReflTransGen.tail h h'

theorem Steps.single (h : Step env c c') : Steps env c c' := Relation.ReflTransGen.single h

/-- The strokes of a block are steps. -/
theorem steps_of_strokes (hb : c.phase = .block b) (h : Strokes env c.scope c.base c.state s') :
    Steps env c { c with state := s' } := by
  induction h with
  | refl => exact Relation.ReflTransGen.refl
  | @tail s₁ s₂ _ step ih =>
    exact ih.tail (.stroke (c := { c with state := s₁ }) hb step)

end Chart

/-- The parts of the edge that ends a block. -/
theorem parts_of_endsBlock {graph : Graph} {e : EdgeId} {edge : Edge}
    (h : graph.EndsBlock b e edge) : graph.parts b = edge.kind.parts := by
  obtain ⟨hb, he⟩ := h
  obtain ⟨block, hblock, hout⟩ := Option.bind_eq_some_iff.mp hb
  simp [Graph.parts, Graph.outgoing?, hblock, hout, he]

theorem parts_of_not_isTry {kind : EdgeKind} (h : kind.isTry = false) : kind.parts = [] := by
  cases kind <;> first | rfl | cases h

/-- A `catch` handler starts with one instruction. -/
theorem handlerHead_of_bindCaught {clause : CatchClause} {asm : Assembler} {n : SiteId} {d : Draft}
    (h : Ends (bindCaught env clause) ⟨asm.pin.beginHandler 1, n⟩ u d) :
    HandlerHead (.catch clause.type) asm d.asm := by
  have plain (i : Instruction) (hp : i.isPlain = true) (ht : i.isTransfer = false) :
      HandlerHead (.catch clause.type) asm ((asm.pin.beginHandler 1).emit i) :=
    .catch (.inl rfl) hp ht
  unfold bindCaught at h
  split at h
  case h_2 =>
    obtain rfl := ends_emit.mp h
    exact plain .pop rfl rfl
  case h_1 name _ =>
    unfold storeVariable at h
    split at h
    · exact (Emit.not_ends_violate h).elim
    case h_2 index _ =>
      obtain ⟨slot, d₁, hslot, h⟩ := ends_bind.mp h
      obtain rfl := ends_emit.mp h
      unfold argumentSlot at hslot
      split at hslot
      · obtain ⟨-, rfl⟩ := ends_pure.mp hslot
        exact plain (.storeArg slot) rfl rfl
      · exact (not_ends_throw hslot).elim
    · obtain rfl := ends_emit_handed.mp h
      exact .catch (.inr (.named _ name)) rfl rfl

/-! ### Parts of derivations -/

/-- The chart is that of a layout. -/
structure Chart.Fits (c : Chart) (p : Progress) (path : Path) : Prop where
  state : c.state = p.state
  placements : c.placements = p.placements
  path : c.path = path
  idle : c.phase.isIdle = true

/-- The chart is at the end of a part, behind which the layout goes on. -/
structure Chart.Behind (c : Chart) (level : Level) (rest : List Level) (p : Progress) : Prop where
  levels : c.levels = level :: rest
  state : { c.state.closeStage level.stage with
    queue := level.queue, escapes := level.escapes } = p.state
  placements : c.placements = p.placements
  idle : c.phase.isIdle = true
  queue : c.state.queue = []
  unreachable : c.state.asm.reachable = false

/-- A body or `catch` handler of the `try` that ends a block. -/
structure Level.Follows (level : Level) (source : BlockId) (outer : Path) (todo : List Part) :
    Prop where
  source : level.stage.source = source
  outer : level.stage.outer = outer
  todo : level.todo = todo
  left : level.stage.part.scope.isLeft = true

/-- The first part of the `try` of a stage that ends at an offset. -/
def Stage.body? (stage : Stage) (stop : Nat) : Option (Nat × Nat) :=
  (stage.done ++ [stage.stretch stop]).head?.map fun body => (body.start, body.stop)

theorem Stage.body?_next (stage : Stage) (stop stop' : Nat) (part : Part) :
    (stage.next stop part).body? stop' = stage.body? stop := by
  unfold body? next
  cases stage.done <;> rfl

/-- The region of a handler, from where the body is. -/
theorem Stage.region?_next {stage : Stage} {part : Part} {kind : HandlerKind}
    {stop stop' tryStart tryEnd : Nat} (h : stage.body? stop = some (tryStart, tryEnd))
    (hpart : part.handler = some kind) :
    (stage.next stop part).region? stop' = some {
      kind
      tryStart
      tryEnd := kind.tryEnd tryEnd stop
      handlerStart := stop
      handlerEnd := stop' } := by
  unfold body? at h
  unfold region? next
  cases hd : stage.done ++ [stage.stretch stop] with
  | nil => simp at hd
  | cons body rest =>
    rw [hd] at h
    cases h
    simp only [hpart]

/-- The steps that a part of a layout goes by. -/
def Job.Charted (env : LayoutEnv) (p p' : Progress) : Job → Prop
  | .drain path => ∀ c, Chart.Fits c p path →
      ∃ c', Chart.Steps env c c' ∧ c'.Fits p' path ∧ c'.levels = c.levels ∧ c'.state.queue = []
  | .block path b => ∀ c, b ∉ p.state.placed → c.state.queue = b :: p.state.queue →
      Chart.Fits { c with state := { c.state with queue := p.state.queue } } p path →
      ∃ c', Chart.Steps env c c' ∧ c'.Fits p' path ∧ c'.levels = c.levels
  | .enter path seed escapes => seed ∉ p.state.placed ∧
      ∀ c, Chart.Fits c (p.map (·.openScope seed)) path →
        ∃ c' p₁, Chart.Steps env c c' ∧ c'.Fits p₁ path ∧ c'.levels = c.levels ∧
          c'.state.queue = [] ∧ c'.state.escapes = escapes ∧ p' = p₁.map (·.closeScope p.state)
  | .catches source path tryStart tryEnd past clauses escapes => ∀ c level rest todo,
      Chart.Behind c level rest p → level.Follows source path (catchParts past clauses ++ todo) →
      level.stage.body? c.state.asm.offset = some (tryStart, tryEnd) →
      ∃ c' level', Chart.Steps env c c' ∧ c'.Behind level' rest p' ∧
        level'.Follows source path todo ∧
        level'.stage.body? c'.state.asm.offset = some (tryStart, tryEnd) ∧
        level'.carried ++ c'.state.escapes = level.carried ++ c.state.escapes ++ escapes
  | .finally source path tryStart handler next => ∀ c level rest tryEnd,
      Chart.Behind c level rest p → level.Follows source path (finallyParts next handler) →
      level.stage.body? c.state.asm.offset = some (tryStart, tryEnd) →
      ∃ c' level', Chart.Steps env c c' ∧ c'.Behind level' rest p' ∧ level'.todo = [] ∧
        level'.stage.outer = path ∧ c'.leavings level' = level.carried ++ c.state.escapes

/-- Targets that parts leave are routed in the scope around them. -/
structure Routed (env : LayoutEnv) (scope : Scope) (targets : List BlockId)
    (s s' : LayoutState) : Prop where
  same : s' = { s with
    queue := s'.queue, escapes := s'.escapes, exitTargeted := s'.exitTargeted }
  routes : ∀ t ∈ targets, ∃ r, route env.ranges scope t = .ok r ∧ r ≠ .endFinally ∧
    (r = .leave → t = Graph.exit ∨ t ∈ s'.escapes)
  escapes : ∀ t ∈ s.escapes, t ∈ s'.escapes
  left : s'.escapes = s.escapes ∨ scope.isLeft = true

theorem Routed.trans {scope : Scope} {targets targets' : List BlockId} {s₁ : LayoutState}
    (h : Routed env scope targets s s₁) (h' : Routed env scope targets' s₁ s') :
    Routed env scope (targets ++ targets') s s' where
  same := by
    have second := h'.same
    rw [h.same] at second
    exact second
  routes t ht := by
    obtain ht | ht := List.mem_append.mp ht
    · obtain ⟨r, hr, hne, hl⟩ := h.routes t ht
      exact ⟨r, hr, hne, fun he => (hl he).imp_right (h'.escapes t)⟩
    · exact h'.routes t ht
  escapes t ht := h'.escapes t (h.escapes t ht)
  left := by
    obtain hl' | hl' := h'.left
    · exact h.left.imp_left hl'.trans
    · exact .inr hl'

/-- A target that is accepted, no matter what is asked of it. -/
theorem routed_accept {scope : Scope} {t : BlockId} {r : Route}
    (hr : route env.ranges scope t = .ok r) : Routed env scope [] s (s.accept t r) := by
  have same : Routed env scope [] s s := ⟨rfl, by simp, fun _ h => h, .inl rfl⟩
  cases r with
  | within =>
    simp only [LayoutState.accept, LayoutState.pushLast]
    split
    · exact same
    · exact ⟨rfl, by simp, fun _ h => h, .inl rfl⟩
  | exit => exact ⟨rfl, by simp, fun _ h => h, .inl rfl⟩
  | leave =>
    simp only [LayoutState.accept, LayoutState.escape]
    split
    · exact ⟨rfl, by simp, fun _ h => h, .inl rfl⟩
    · exact ⟨rfl, by simp, fun _ h => List.mem_append_left _ h, .inr (route_leave hr)⟩
  | endFinally => exact same

theorem routed_of_ends_enqueueEscapes {scope : Scope} {targets : List BlockId}
    (h : Ends (enqueueEscapes env scope targets) s u s') : Routed env scope targets s s' := by
  induction targets generalizing s with
  | nil =>
    obtain ⟨-, rfl⟩ := ends_pure.mp h
    exact ⟨rfl, by simp, fun _ h => h, .inl rfl⟩
  | cons t rest ih =>
    obtain ⟨r, hr, hf, h⟩ := ends_enqueueEscapes_cons.mp h
    have accepted : Routed env scope [t] s (s.accept t r) :=
      { routed_accept hr with
        routes := fun c hc => by
          obtain rfl := List.mem_singleton.mp hc
          refine ⟨r, hr, hf, fun he => ?_⟩
          subst he
          exact mem_escape s c }
    exact accepted.trans (ih h)

section Parts

variable {job : Job} {p p₁ p₂ : Progress}

/-- The head of a block: the block begins, and its statements are written. -/
theorem steps_head {path : Path} {s₁ : LayoutState} (hs : p.state.Ready)
    (hslots : p.state.asm.slots.Sound) (hb : b ∉ p.state.placed) (hne : b ≠ Graph.exit)
    (hrange : innermost? env.ranges b = (scopeOf path).range)
    (hstatements : Ends (placeStatements env b) (p.state.beginBlock b) u s₁)
    (hqueue : c.state.queue = b :: p.state.queue)
    (hc : Chart.Fits { c with state := { c.state with queue := p.state.queue } } p path) :
    ∃ c₁, Chart.Steps env c c₁ ∧ c₁.state = s₁ ∧ c₁.placements = ⟨b, path⟩ :: p.placements ∧
      c₁.levels = c.levels ∧ c₁.phase = .block b ∧ c₁.base ≤ s₁.asm.labels.size := by
  have path_eq : c.path = path := hc.path
  have state_eq : { c.state with queue := p.state.queue } = p.state := hc.state
  have begun : Chart.Step env c (c.begin b p.state.queue) := by
    refine .begin hc.idle hqueue ?_ hne ?_
    · rw [← state_eq] at hb
      exact hb
    · rw [Chart.scope, path_eq]
      exact hrange
  have state : (c.begin b p.state.queue).state = p.state.beginBlock b := by
    simp only [Chart.begin, state_eq]
  have base : (c.begin b p.state.queue).base = (p.state.beginBlock b).asm.labels.size := by
    simp only [Chart.begin, state_eq]
  have head := continues_beginBlock hs hslots b
  have written : Strokes env (c.begin b p.state.queue).scope (c.begin b p.state.queue).base
      (c.begin b p.state.queue).state s₁ := by
    rw [state]
    exact strokes_of_ends_placeStatements head.ready head.slots (Nat.le_of_eq base) hstatements
  refine ⟨_, (Chart.Steps.single begun).trans (Chart.steps_of_strokes rfl written), rfl, ?_, rfl,
    rfl, ?_⟩
  · have placements : c.placements = p.placements := hc.placements
    simp only [Chart.begin, path_eq, placements]
  · rw [state] at written
    exact written.base_le head.ready (Nat.le_of_eq base)

/-- The layout from the end of one part of a `try` to the end of the next. -/
theorem steps_turn {level : Level} {rest : List Level} {source : BlockId} {outer : Path}
    {part : Part} {todo : List Part} {kind : HandlerKind} {d : Draft} {escapes : List BlockId}
    {tryStart tryEnd : Nat} (hc : c.Behind level rest p)
    (hlevel : level.Follows source outer (part :: todo))
    (hbody : level.stage.body? c.state.asm.offset = some (tryStart, tryEnd))
    (hpart : part.handler = some kind) (hhead : HandlerHead kind c.state.asm d.asm)
    (hreach : p₂.state.asm.reachable = false)
    (h : Job.Charted env ⟨{ p.state with draft := d }, p.placements⟩ p₂
      (.enter (⟨source, part.scope⟩ :: outer) part.seed escapes)) :
    let stage := level.stage.next c.state.asm.offset part
    let level' : Level := { level with stage, todo, carried := level.carried ++ c.state.escapes }
    ∃ c', Chart.Steps env c c' ∧
      c'.Behind level' rest (p₂.map (·.endHandler fun stop => {
        kind
        tryStart
        tryEnd := kind.tryEnd tryEnd p.state.asm.offset
        handlerStart := p.state.asm.offset
        handlerEnd := stop })) ∧
      stage.body? c'.state.asm.offset = some (tryStart, tryEnd) ∧ c'.state.escapes = escapes := by
  obtain ⟨hseed, h⟩ := h
  -- The chart turns to the part first. Then the part is laid out in a scope of its own, which the
  -- charted job does.
  have turned : Chart.Step env c (c.turn level rest part todo d) := by
    refine .turn hc.idle hc.levels hlevel.todo hpart hc.queue hc.unreachable ?_ hhead
    have placed := congrArg LayoutState.placed hc.state
    simp only [LayoutState.closeStage, LayoutState.mapAsm] at placed
    rw [placed]
    exact hseed
  have fits : Chart.Fits (c.turn level rest part todo d)
      ((⟨{ p.state with draft := d }, p.placements⟩ : Progress).map (·.openScope part.seed))
      (⟨source, part.scope⟩ :: outer) := by
    refine ⟨?_, hc.placements, ?_, rfl⟩
    · simp only [← hc.state]
      rfl
    · rw [← hlevel.source, ← hlevel.outer]
      rfl
  obtain ⟨c', p₁, steps, fits', levels, queue, escapes, rfl⟩ := h _ fits
  refine ⟨c', (Chart.Steps.single turned).trans steps, ⟨levels, ?_, fits'.placements, fits'.idle,
    queue, by rw [fits'.state]; exact hreach⟩, ?_, escapes⟩
  · simp only [LayoutState.closeStage, Stage.region?_next hbody hpart, fits'.state,
      ← hc.state]
    rfl
  · rw [Stage.body?_next, hbody]

/-- **Every part of a layout goes by steps.** -/
theorem steps_of_lays {p' : Progress} (hg : env.graph.Built) (h : Lays env job p p')
    (hs : p.state.Ready) (hslots : p.state.asm.slots.Sound) (hstart : job.Starts p.state) :
    job.Charted env p p' := by
  induction h with
  | @done path p hq =>
    intro c hc
    exact ⟨c, Relation.ReflTransGen.refl, hc, rfl, by rw [hc.state, hq]⟩
  | @skip path p b rest p' hq hb _ ih =>
    intro c hc
    have starts : (Job.drain path).Starts { p.state with queue := rest } :=
      starts_of_unreachable (hstart.unreachable hq hb)
    obtain ⟨c', steps, fits, levels, queue⟩ := ih hs hslots starts
      { c with state := { c.state with queue := rest } }
      ⟨by rw [hc.state]; rfl, hc.placements, hc.path, hc.idle⟩
    have skipped : Chart.Step env c _ := .skip (hc.state ▸ hq) (hc.state ▸ hb)
    exact ⟨c', (Chart.Steps.single skipped).trans steps, fits, levels, queue⟩
  | @place path p b rest p₁ p' hq hb h₁ _ ih₁ ih₂ =>
    intro c hc
    obtain ⟨⟨-, ready, slots, -, -⟩, unreachable⟩ := continues_of_lays h₁ hs hslots trivial
    obtain ⟨c₁, steps₁, fits₁, levels₁⟩ := ih₁ hs hslots trivial c hb (by rw [hc.state]; exact hq)
      ⟨by rw [hc.state]; rfl, hc.placements, hc.path, hc.idle⟩
    obtain ⟨c', steps, fits, levels, queue⟩ := ih₂ ready slots (starts_of_unreachable unreachable)
      c₁ fits₁
    exact ⟨c', steps₁.trans steps, fits, levels.trans levels₁, queue⟩
  | @plain path p b e edge s₁ s' enter hrange hstatements hends hk hedge =>
    intro c hb hq hc
    obtain ⟨c₁, steps, rfl, placements, levels, phase, base⟩ := steps_head hs hslots hb
      (ne_exit_of_endsBlock hg hends) hrange hstatements hq hc
    have head := continues_of_ends_head hs hslots hstatements
    have path_eq : c₁.path = path := by rw [← hc.path, Chart.path, levels]; rfl
    have written : Strokes env c₁.scope c₁.base c₁.state s' := by
      rw [Chart.scope, path_eq]
      exact strokes_of_ends_placeEdge head.ready head.slots base hk hedge
    have settled : Chart.Step env { c₁ with state := s' }
        { c₁ with state := s', phase := .behind } :=
      .settle phase (by rw [parts_of_endsBlock hends, parts_of_not_isTry hk])
    exact ⟨_, (steps.trans (Chart.steps_of_strokes phase written)).tail settled,
      ⟨rfl, placements, path_eq, rfl⟩, levels⟩
  | @guard path p b e edge body catches finally? next s₁ p₂ p₃ p₄ s₅ r fromBody fromCatches
      hrange hstatements hends hkind h₂ h₃ h₄ hescapes hr ih₂ ih₃ ih₄ =>
    intro c hb hq hc
    have goes := guardGoes hs hslots hstatements (continues_of_lays h₂) (continues_of_lays h₃)
      (continues_of_lays h₄) hescapes hr
    obtain ⟨c₁, steps₁, rfl, placements, levels, phase, base⟩ := steps_head hs hslots hb
      (ne_exit_of_endsBlock hg hends) hrange hstatements hq hc
    have path_eq : c₁.path = path := by rw [← hc.path, Chart.path, levels]; rfl
    have parts : env.graph.parts b = bodyPart body catches (finally?.getD next) ::
        (catchParts (finally?.getD next) catches ++ finallyParts next finally?) := by
      rw [parts_of_endsBlock hends, hkind]
      rfl
    -- The body.
    obtain ⟨hseed, ih₂⟩ := ih₂ goes.pin.ready goes.pin.slots trivial
    have opened : Chart.Step env c₁ _ := .openBody phase parts hseed
    obtain ⟨c₂, p₁, steps₂, fits₂, levels₂, queue₂, escapes₂, rfl⟩ := ih₂ (c₁.openBody b
      (bodyPart body catches (finally?.getD next))
      (catchParts (finally?.getD next) catches ++ finallyParts next finally?)) (by
        refine ⟨rfl, placements, ?_, rfl⟩
        show _ :: c₁.path = _
        rw [path_eq]
        rfl)
    -- The handlers.
    obtain ⟨c₃, level₃, steps₃, behind₃, follows₃, body₃, carried₃⟩ := ih₃ goes.pinBehind.ready
      goes.pinBehind.slots goes.unreachable₂ c₂ _ _ (finallyParts next finally?)
      ⟨levels₂, by rw [fits₂.state]; rfl, fits₂.placements, fits₂.idle, queue₂,
        by rw [fits₂.state]; exact goes.unreachable₂⟩
      ⟨rfl, path_eq, rfl, rfl⟩ (by rw [fits₂.state]; rfl)
    obtain ⟨c₄, level₄, steps₄, behind₄, todo₄, outer₄, leavings₄⟩ := ih₄ goes.catches.ready
      goes.catches.slots goes.unreachable₃ c₃ level₃ c₁.levels _ behind₃ follows₃ body₃
    -- What the parts leave.
    have routed := (routed_of_ends_enqueueEscapes hescapes).trans (routed_accept (s := s₅) hr)
    rw [List.append_nil] at routed
    have carried : c₄.leavings level₄ = fromBody ++ fromCatches := by
      rw [leavings₄, carried₃, escapes₂]
      rfl
    have saved : level₄.escapes = p₄.state.escapes := congrArg LayoutState.escapes behind₄.state
    have finished : Chart.Step env c₄ (c₄.finish level₄ c₁.levels (s₅.accept next r).queue
        (s₅.accept next r).escapes (s₅.accept next r).exitTargeted) := .finish behind₄.idle
      behind₄.levels todo₄ behind₄.queue behind₄.unreachable
      (by rw [carried, outer₄]; exact routed.routes)
      (by rw [saved]; exact routed.escapes)
      (by rw [saved, outer₄]; exact routed.left)
    refine ⟨_, (((steps₁.tail opened).trans steps₂).trans (steps₃.trans steps₄)).tail finished,
      ⟨?_, behind₄.placements, path_eq, rfl⟩, levels⟩
    show _ = s₅.accept next r
    rw [routed.same, ← behind₄.state]
    rfl
  | @enter path p seed p₁ hseed _ ih =>
    refine ⟨hseed, fun c hc => ?_⟩
    obtain ⟨c', steps, fits, levels, queue⟩ := ih hs hslots (starts_openScope hseed) c hc
    exact ⟨c', p₁, steps, fits, levels, queue, by rw [fits.state], rfl⟩
  | noCatch =>
    intro c level rest todo hc hlevel hbody
    exact ⟨c, level, Relation.ReflTransGen.refl, hc, hlevel, hbody, by simp⟩
  | @«catch» source path tryStart tryEnd past clause rest p s₁ p₂ p' escapes others hbind h₁ h₂
      ih₁ ih₂ =>
    intro c level levels todo hc hlevel hbody
    have goes := catchGoes hs hslots hstart hbind (continues_of_lays h₁)
    obtain ⟨d, hd, rfl⟩ := ends_write.mp hbind
    have asm : c.state.asm.pin = p.state.asm := congrArg LayoutState.asm hc.state
    have head : HandlerHead (.catch clause.type) c.state.asm d.asm := by
      have before : (p.state.beginHandler 1).draft =
          ⟨c.state.asm.pin.beginHandler 1, p.state.draft.nextSite⟩ := by
        show (⟨p.state.asm.pin.beginHandler 1, _⟩ : Draft) = _
        rw [← asm]
        rfl
      rw [before] at hd
      exact handlerHead_of_bindCaught hd
    obtain ⟨c₁, steps₁, behind₁, body₁, escapes₁⟩ := steps_turn hc hlevel hbody rfl head
      goes.unreachable (ih₁ goes.bound.ready goes.bound.slots trivial)
    obtain ⟨c', level', steps, behind, follows, body, carried⟩ := ih₂ (goes.behind _).ready
      (goes.behind _).slots goes.unreachable c₁ _ levels todo behind₁
      ⟨hlevel.source, hlevel.outer, rfl, rfl⟩ body₁
    refine ⟨c', level', steps₁.trans steps, behind, follows, body, ?_⟩
    rw [carried, escapes₁]
    simp only [List.append_assoc]
  | noFinally =>
    intro c level rest tryEnd hc hlevel hbody
    refine ⟨c, level, Relation.ReflTransGen.refl, hc, hlevel.todo, hlevel.outer, ?_⟩
    simp [Chart.leavings, hlevel.left]
  | @«finally» source path tryStart handler next p p₁ escapes h₁ ih =>
    intro c level rest tryEnd hc hlevel hbody
    have goes := finallyGoes hs hslots hstart (continues_of_lays h₁)
    have asm : c.state.asm.pin = p.state.asm := congrArg LayoutState.asm hc.state
    have head : HandlerHead .finally c.state.asm (p.state.beginHandler 0).asm := by
      have before : (p.state.beginHandler 0).asm = c.state.asm.pin.beginHandler 0 := by
        show p.state.asm.pin.beginHandler 0 = _
        rw [← asm]
        rfl
      rw [before]
      exact .finally
    obtain ⟨c', steps, behind, -, -⟩ := steps_turn hc hlevel hbody rfl
      (d := (p.state.beginHandler 0).draft) head goes.unreachable
      (ih goes.head.ready goes.head.slots trivial)
    exact ⟨c', _, steps, behind, rfl, hlevel.outer, List.append_nil _⟩

end Parts

/-- The exit block is written in strokes. -/
theorem steps_of_exitPlaced (hs : c.state.Ready) (hslots : c.state.asm.slots.Sound)
    (hidle : c.phase.isIdle = true) (hlevels : c.levels = [])
    (hexit : Graph.exit ∉ c.state.placed) (h : ExitPlaced env c.state s') :
    ∃ c', Chart.Steps env c c' ∧ c'.state = s' ∧ c'.levels = [] ∧
      c'.phase = .block Graph.exit := by
  obtain ⟨s₁, hstatements, rfl⟩ := h.placed
  have begun : Chart.Step env c _ := .exit hidle hlevels hexit
  have head := continues_beginBlock hs hslots Graph.exit
  have written : Strokes env (c.begin Graph.exit c.state.queue).scope
      (c.begin Graph.exit c.state.queue).base (c.begin Graph.exit c.state.queue).state s₁ :=
    strokes_of_ends_placeStatements head.ready head.slots (Nat.le_refl _) hstatements
  have plain : s₁.asm.resultLoad.target? = none ∧ s₁.asm.resultLoad ≠ .endFinally := by
    unfold Assembler.resultLoad
    split <;> exact ⟨rfl, by rintro ⟨⟩⟩
  have returned := (written.tail (.emit plain.1 plain.2)).tail
    (.emit (i := .return) rfl (by rintro ⟨⟩))
  exact ⟨_, (Chart.Steps.single begun).trans (Chart.steps_of_strokes rfl returned), rfl, hlevels,
    rfl⟩

/-- **A layout of all blocks goes by steps**, and ends outside all scopes, at the exit if something
goes there. -/
theorem steps_of_ends_placeAll {draft : Draft} (hg : env.graph.Built)
    (hdraft : Assembler.Evolves .empty draft.asm) (h : Ends (placeAll env) (.start draft) u s) :
    ∃ c, Chart.Steps env (.start draft) c ∧ c.state = s ∧ c.levels = [] ∧
      (c.phase.isIdle = true ∨ c.phase = .block Graph.exit) := by
  obtain ⟨ready, slots, starts⟩ := begins_start hdraft
  obtain ⟨p, hlays, hexit⟩ := lays_of_ends_placeAll h
  obtain ⟨continues, -⟩ := continues_of_lays hlays ready slots starts
  have covers := covers_of_lays hg hlays ready slots starts
  obtain ⟨c, steps, fits, levels, -⟩ := steps_of_lays hg hlays ready slots starts (.start draft)
    ⟨rfl, rfl, rfl, rfl⟩
  split at hexit
  case isTrue =>
    rw [← fits.state] at hexit
    obtain ⟨c', steps', state, levels', phase⟩ := steps_of_exitPlaced
      (fits.state ▸ continues.ready) (fits.state ▸ continues.slots) fits.idle levels
      (fits.state ▸ covers.exit (by simp [LayoutState.start])) hexit
    exact ⟨c', steps.trans steps', state, levels', .inr phase⟩
  case isFalse => exact ⟨c, steps, by rw [fits.state, hexit], levels, .inl fits.idle⟩

/-! ## What steps write -/

namespace Chart

variable {draft : Draft}

/-- The start of a handler is writing. -/
theorem evolves_of_handlerHead {kind : HandlerKind} {a a' : Assembler} (h : HandlerHead kind a a')
    (hr : a.reachable = false) : a.Evolves a' := by
  have begun (depth : Nat) : a.Evolves (a.pin.beginHandler depth) :=
    (Assembler.Evolves.single .pin).tail (.beginHandler hr rfl)
  cases h with
  | «finally» => exact begun 0
  | @«catch» _ _ slots i hslots hp _ =>
    have served : (a.pin.beginHandler 1).Evolves { a.pin.beginHandler 1 with slots } := by
      obtain rfl | hslots := hslots
      · exact .refl _
      · exact .single (.serve hslots)
    exact ((begun 1).trans served).tail (.emit (Instruction.target_of_isPlain hp))

/-- **A step writes code**, and gives labels to blocks. -/
theorem Step.evolves (h : Step env c c') (hs : c.state.Ready) :
    c.state.asm.Evolves c'.state.asm ∧ c'.state.Ready := by
  cases h with
  | skip | settle => exact ⟨.refl _, hs⟩
  | @begin b rest =>
    obtain ⟨evolves, ready, -⟩ := extends_beginBlock (s := { c.state with queue := rest }) hs b
    exact ⟨evolves, ready⟩
  | exit =>
    obtain ⟨evolves, ready, -⟩ := extends_beginBlock hs Graph.exit
    exact ⟨evolves, ready⟩
  | stroke _ h => exact ⟨h.evolves hs, h.ready hs⟩
  | openBody | finish => exact ⟨.single .pin, hs⟩
  | turn _ _ _ _ _ hr _ hhead =>
    have evolves := evolves_of_handlerHead hhead hr
    exact ⟨evolves, fun b l hl => Nat.lt_of_lt_of_le (hs b l hl) evolves.labels_le⟩

/-- Any number of steps write code. -/
theorem Steps.evolves (h : Steps env c c') (hs : c.state.Ready) :
    c.state.asm.Evolves c'.state.asm ∧ c'.state.Ready := by
  induction h with
  | refl => exact ⟨.refl _, hs⟩
  | tail _ step ih =>
    obtain ⟨evolves, ready⟩ := step.evolves ih.2
    exact ⟨ih.1.trans evolves, ready⟩

/-- What holds at the start and is kept by every step whose code has no fault holds of all code
without a fault. -/
theorem Steps.invariant {I : Chart → Prop} (h : Steps env c c') (hs : c.state.Ready)
    (hf : c'.state.asm.fault = none) (start : I c)
    (step : ∀ {a b : Chart}, Step env a b → a.state.Ready → b.state.asm.fault = none →
      I a → I b) : I c' := by
  induction h with
  | refl => exact start
  | tail h last ih =>
    have ready := (Steps.evolves h hs).2
    exact step last ready hf (ih ((last.evolves ready).1.fault hf))

end Chart

end Steps

end StackScript
