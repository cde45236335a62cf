import StackScript.Proofs.Layout.Steps
import StackScript.Proofs.Writing.Assembly

/-!
# How a layout comes about

A layout that succeeds is taken apart into the blocks that it places and the scopes that it enters.
The derivation keeps two things that the layout itself forgets: the scopes around each block, and
the blocks whose edges opened them. Every theorem on layouts is an induction over derivations.

The other way round, the steps of a layout succeed if their parts do: the blocks of a scope one
behind the other, the parts of a `try`, and the exit block behind everything.

## Main definitions

* `Tag`, `Path`: an opened scope, and the scopes around a place, the innermost first
* `Progress`: a layout so far, with the path of every block that is placed
* `Lays env job p p'`: the job takes the progress from `p` to `p'`

## Main results

* `lays_of_ends_drain`: draining a scope is a derivation
* `lays_of_ends_placeAll`: a successful layout is one of the root scope, and the exit block
* `ends_placeBlock`, `ends_placeTry`: a block with its edge, and the edge of a `try`
* `ends_drain_place`: a scope, from its next block on
* `ends_placeAll`: a whole layout
-/

namespace StackScript

open Emit Arrange

/-! ## Paths -/

/-- A scope and the block whose edge opened it. -/
structure Tag where
  source : BlockId
  scope : Scope

/-- The scopes around a place in the code, the innermost first. -/
abbrev Path := List Tag

/-- The innermost scope of a path. -/
def scopeOf : Path → Scope
  | [] => Scope.root
  | tag :: _ => tag.scope

/-- A block that has been placed, and the scopes around it. -/
structure PlacedBlock where
  block : BlockId
  path : Path

/-- A layout so far, and the placements of its blocks, the latest first. -/
structure Progress where
  state : LayoutState
  placements : List PlacedBlock

namespace Progress

variable (p : Progress) (f : LayoutState → LayoutState)

/-- The progress with another layout. -/
def map (p : Progress) (f : LayoutState → LayoutState) : Progress := { p with state := f p.state }

@[simp] theorem state_map : (p.map f).state = f p.state := rfl

@[simp] theorem placements_map : (p.map f).placements = p.placements := rfl

end Progress

/-! ## Steps of a derivation -/

namespace LayoutState

/-- The start of a block. -/
def beginBlock (s : LayoutState) (b : BlockId) : LayoutState :=
  let labeled := { s with placed := b :: s.placed }.withLabel b
  let marked := labeled.2.mapAsm (·.place labeled.1)
  { marked.mapAsm (·.pin) with blockOffsets := marked.blockOffsets.push (b, marked.asm.offset) }

/-- The start of a handler. -/
def beginHandler (s : LayoutState) (depth : Nat) : LayoutState :=
  s.mapAsm fun asm => asm.pin.beginHandler depth

/-- The end of a handler, whose region is complete. -/
def endHandler (s : LayoutState) (region : Nat → Region) : LayoutState :=
  { s.mapAsm (·.pin) with regions := s.regions.push (region s.asm.offset) }

/-- The start of a nested scope. -/
def openScope (s : LayoutState) (seed : BlockId) : LayoutState :=
  { s with queue := [seed], escapes := [] }

/-- The end of a nested scope: the queue and the escapes are those of the scope around it. -/
def closeScope (s outer : LayoutState) : LayoutState :=
  { s with queue := outer.queue, escapes := outer.escapes }

end LayoutState

/-- The edge that ends a block, with its number. -/
def Graph.EndsBlock (graph : Graph) (b : BlockId) (e : EdgeId) (edge : Edge) : Prop :=
  graph.blocks[b]?.bind (·.outgoing) = some e ∧ graph.edges[e]? = some edge

/-- Where the code of a clause ends in the source: at the next clause, or behind the last one. -/
def catchEnd (past : BlockId) : List CatchClause → BlockId
  | following :: _ => following.target
  | [] => past

/-- What a part of a derivation does. -/
inductive Job where
  /-- Places the blocks that wait in the innermost scope of a path. -/
  | drain (path : Path)
  | block (path : Path) (b : BlockId)
  /-- Lays a scope out from its first block, up to the targets that it leaves. -/
  | enter (path : Path) (seed : BlockId) (escapes : List BlockId)
  | catches (source : BlockId) (path : Path) (tryStart tryEnd : Nat) (past : BlockId)
      (clauses : List CatchClause) (escapes : List BlockId)
  | finally (source : BlockId) (path : Path) (tryStart : Nat) (handler : Option BlockId)
      (next : BlockId)

/-- The derivations of layouts. -/
inductive Lays (env : LayoutEnv) : Job → Progress → Progress → Prop where
  | done {path p} : p.state.queue = [] → Lays env (.drain path) p p
  | skip {path p b rest p'} :
      p.state.queue = b :: rest → b ∈ p.state.placed →
      Lays env (.drain path) (p.map fun s => { s with queue := rest }) p' →
      Lays env (.drain path) p p'
  | place {path p b rest p₁ p'} :
      p.state.queue = b :: rest → b ∉ p.state.placed →
      Lays env (.block path b) (p.map fun s => { s with queue := rest }) p₁ →
      Lays env (.drain path) p₁ p' →
      Lays env (.drain path) p p'
  /-- A block whose edge opens no scope. -/
  | plain {path p b e edge s₁ s' enter} :
      innermost? env.ranges b = (scopeOf path).range →
      Ends (placeStatements env b) (p.state.beginBlock b) () s₁ →
      env.graph.EndsBlock b e edge → edge.kind.isTry = false →
      Ends (placeEdge env enter (scopeOf path) e edge) s₁ () s' →
      Lays env (.block path b) p ⟨s', ⟨b, path⟩ :: p.placements⟩
  /-- A block whose edge guards a body. -/
  | guard {path p b e edge body catches finally? next s₁ p₂ p₃ p₄ s₅ r fromBody fromCatches} :
      innermost? env.ranges b = (scopeOf path).range →
      Ends (placeStatements env b) (p.state.beginBlock b) () s₁ →
      env.graph.EndsBlock b e edge → edge.kind = .tryCatch body catches finally? next →
      Lays env
        (.enter
          (⟨b, .body, some ⟨body, catchEnd (finally?.getD next) catches⟩⟩ :: path) body fromBody)
        ⟨s₁.mapAsm (·.pin), ⟨b, path⟩ :: p.placements⟩ p₂ →
      Lays env
        (.catches b path s₁.asm.offset p₂.state.asm.offset (finally?.getD next) catches
          fromCatches)
        (p₂.map (·.mapAsm (·.pin))) p₃ →
      Lays env (.finally b path s₁.asm.offset finally? next) p₃ p₄ →
      Ends (enqueueEscapes env (scopeOf path) (fromBody ++ fromCatches)) p₄.state () s₅ →
      route env.ranges (scopeOf path) next = .ok r →
      Lays env (.block path b) p ⟨s₅.accept next r, p₄.placements⟩
  | enter {path p seed p₁} :
      seed ∉ p.state.placed →
      Lays env (.drain path) (p.map (·.openScope seed)) p₁ →
      Lays env (.enter path seed p₁.state.escapes) p (p₁.map (·.closeScope p.state))
  | noCatch {source path tryStart tryEnd past p} :
      Lays env (.catches source path tryStart tryEnd past [] []) p p
  | catch {source path tryStart tryEnd past clause rest p s₁ p₂ p' escapes others} :
      Ends (write (bindCaught env clause)) (p.state.beginHandler 1) () s₁ →
      Lays env
        (.enter (⟨source, .catch, some ⟨clause.target, catchEnd past rest⟩⟩ :: path)
          clause.target escapes)
        ⟨s₁, p.placements⟩ p₂ →
      Lays env (.catches source path tryStart tryEnd past rest others)
        (p₂.map (·.endHandler (⟨.catch clause.type, tryStart, tryEnd, p.state.asm.offset, ·⟩)))
        p' →
      Lays env
        (.catches source path tryStart tryEnd past (clause :: rest) (escapes ++ others)) p p'
  | noFinally {source path tryStart next p} :
      Lays env (.finally source path tryStart none next) p p
  | finally {source path tryStart handler next p p₁ escapes} :
      Lays env
        (.enter (⟨source, .finally next, some ⟨handler, next⟩⟩ :: path) handler escapes)
        (p.map (·.beginHandler 0)) p₁ →
      Lays env (.finally source path tryStart (some handler) next) p
        (p₁.map (·.endHandler
          (⟨.finally, tryStart, p.state.asm.offset, p.state.asm.offset, ·⟩)))

/-! ## From runs to derivations -/

section Runs

variable {env : LayoutEnv} {s s' : LayoutState} {u : PUnit}

theorem ends_beginBlock {b : BlockId} :
    Ends (beginBlock b) s u s' ↔ s' = s.beginBlock b := by
  simp only [beginBlock, ends_bind, ends_modify, ends_blockLabel, ends_write, ends_onAssembler,
    ends_pinnedOffset]
  constructor
  · rintro ⟨_, _, rfl, l, s₁, hl, _, _, ⟨_, rfl, rfl⟩, _, _, ⟨rfl, rfl⟩, rfl⟩
    unfold LayoutState.beginBlock
    rw [← hl]
    rfl
  · rintro rfl
    exact ⟨⟨⟩, _, rfl, _, _, rfl, ⟨⟩, _, ⟨_, rfl, rfl⟩, _, _, ⟨rfl, rfl⟩, rfl⟩

/-- The runs of a way to drain scopes are derivations. -/
def Drains (env : LayoutEnv) (drained : Scope → Arrange Unit) : Prop :=
  ∀ (path : Path) (p : Progress) (s' : LayoutState),
    Ends (drained (scopeOf path)) p.state () s' →
      ∃ placements, Lays env (.drain path) p ⟨s', placements⟩

variable {drained : Scope → Arrange Unit} {p : Progress} {tryStart : Nat}

theorem lays_of_ends_enterScope (hd : Drains env drained) (path : Path) {seed : BlockId}
    {escapes : List BlockId} (h : Ends (enterScope drained (scopeOf path) seed) p.state escapes s') :
    ∃ placements, Lays env (.enter path seed escapes) p ⟨s', placements⟩ := by
  simp only [enterScope, ends_bind, ends_isPlaced] at h
  obtain ⟨_, _, ⟨rfl, rfl⟩, h⟩ := h
  by_cases hs : seed ∈ p.state.placed
  · simp [hs] at h
  · simp only [List.contains_iff_mem, hs, if_false, ends_bind, ends_pure, ends_get, ends_set] at h
    obtain ⟨_, _, ⟨rfl, rfl⟩, _, _, rfl, _, s₁, hdrain, _, _, ⟨rfl, rfl⟩, _, _, rfl, rfl, rfl⟩ := h
    obtain ⟨placements, hl⟩ := hd path (p.map (·.openScope seed)) s₁ hdrain
    exact ⟨placements, Lays.enter hs hl⟩

theorem lays_of_ends_placeCatches (hd : Drains env drained) (source : BlockId) (path : Path)
    {tryEnd : Nat} {past : BlockId} {clauses : List CatchClause} {escapes : List BlockId}
    (h : Ends (placeCatches env (enterScope drained) tryStart tryEnd past clauses) p.state escapes s') :
    ∃ placements,
      Lays env (.catches source path tryStart tryEnd past clauses escapes) p
        ⟨s', placements⟩ := by
  induction clauses generalizing p escapes with
  | nil =>
    simp only [placeCatches, ends_pure] at h
    obtain ⟨rfl, rfl⟩ := h
    exact ⟨_, .noCatch⟩
  | cons clause rest ih =>
    simp only [placeCatches, ends_bind, ends_pinnedOffset, ends_write, ends_onAssembler,
      ends_modify, ends_pure] at h
    obtain ⟨_, _, ⟨rfl, rfl⟩, _, _, ⟨d, ⟨_, _, rfl, hbind⟩, rfl⟩, mine, s₂, henter, _, _,
      ⟨rfl, rfl⟩, _, _, rfl, others, _, hrest, rfl, rfl⟩ := h
    obtain ⟨placed₂, hl₂⟩ := lays_of_ends_enterScope hd
      (⟨source, .catch, some ⟨clause.target, catchEnd past rest⟩⟩ :: path)
      (p := ⟨_, p.placements⟩) henter
    obtain ⟨placed₃, hl₃⟩ := ih
      (p := (⟨s₂, placed₂⟩ : Progress).map
        (·.endHandler (⟨.catch clause.type, tryStart, tryEnd, p.state.asm.offset, ·⟩))) hrest
    exact ⟨placed₃, .catch (ends_write.mpr ⟨_, hbind, rfl⟩) hl₂ hl₃⟩

theorem lays_of_ends_placeFinally (hd : Drains env drained) (source : BlockId) (path : Path)
    {handler next : BlockId}
    (h : Ends (placeFinally (enterScope drained) tryStart handler next) p.state u s') :
    ∃ placements,
      Lays env (.finally source path tryStart (some handler) next) p ⟨s', placements⟩ := by
  simp only [placeFinally, ends_bind, ends_pinnedOffset, ends_write, ends_onAssembler,
    ends_modify] at h
  obtain ⟨_, _, ⟨rfl, rfl⟩, _, _, ⟨_, rfl, rfl⟩, escapes, s₂, henter, _, _, ⟨rfl, rfl⟩, rfl⟩ := h
  obtain ⟨placed₂, hl₂⟩ := lays_of_ends_enterScope hd
    (⟨source, .finally next, some ⟨handler, next⟩⟩ :: path)
    (p := p.map (·.beginHandler 0)) henter
  exact ⟨placed₂, .finally hl₂⟩

theorem lays_of_ends_placeBlock (hd : Drains env drained) {path : Path} {b : BlockId}
    (h : Ends (placeBlock env (enterScope drained) (scopeOf path) b) p.state u s') :
    ∃ placements, Lays env (.block path b) p ⟨s', placements⟩ := by
  by_cases hrange : innermost? env.ranges b = (scopeOf path).range
  case neg => simp [placeBlock, hrange] at h
  simp only [placeBlock, hrange, ne_eq, not_true_eq_false, if_false, ends_bind,
    ends_beginBlock] at h
  obtain ⟨_, _, rfl, _, s₁, hstatements, hedge⟩ := h
  cases he : env.graph.blocks[b]?.bind (·.outgoing) with
  | none => simp [he] at hedge
  | some e =>
    simp only [he] at hedge
    cases hedge' : env.graph.edges[e]? with
    | none => simp [hedge'] at hedge
    | some edge =>
      simp only [hedge'] at hedge
      cases hkind : edge.kind with
      | tryCatch body catches finally? next =>
        simp only [placeEdge, hkind, placeTry, ends_bind, ends_pinnedOffset] at hedge
        obtain ⟨_, _, ⟨rfl, rfl⟩, fromBody, s₂, hbody, _, _, ⟨rfl, rfl⟩, fromCatches, s₃, hcatches,
          hedge⟩ := hedge
        -- The parts one behind the other: the body, the `catch` handlers, and the `finally` handler
        -- if there is one.
        obtain ⟨placed₂, hl₂⟩ := lays_of_ends_enterScope hd
          (⟨b, .body, some ⟨body, catchEnd (finally?.getD next) catches⟩⟩ :: path)
          (p := ⟨_, ⟨b, path⟩ :: p.placements⟩) hbody
        obtain ⟨placed₃, hl₃⟩ := lays_of_ends_placeCatches hd b path
          (p := (⟨s₂, placed₂⟩ : Progress).map (·.mapAsm (·.pin))) hcatches
        have hl₄ : ∃ s₄ placed₄,
            Lays env (.finally b path s₁.asm.offset finally? next) ⟨s₃, placed₃⟩ ⟨s₄, placed₄⟩ ∧
              Ends (do
                enqueueEscapes env (scopeOf path) (fromBody ++ fromCatches)
                enqueue env (scopeOf path) next) s₄ u s' := by
          cases finally? with
          | none => exact ⟨s₃, placed₃, .noFinally, hedge⟩
          | some handler =>
            obtain ⟨_, s₄, hfinally, hrest⟩ := ends_bind.mp hedge
            obtain ⟨placed₄, hl₄⟩ := lays_of_ends_placeFinally hd b path (p := ⟨s₃, placed₃⟩) hfinally
            exact ⟨s₄, placed₄, hl₄, hrest⟩
        obtain ⟨s₄, placed₄, hl₄, hrest⟩ := hl₄
        simp only [ends_bind, ends_enqueue] at hrest
        obtain ⟨_, s₅, hescapes, r, hnext, rfl⟩ := hrest
        exact ⟨placed₄, .guard hrange hstatements ⟨he, hedge'⟩ hkind hl₂ hl₃ hl₄ hescapes hnext⟩
      | jump | branch | enumerate | advance | switch =>
        exact ⟨_, .plain hrange hstatements ⟨he, hedge'⟩ (by rw [hkind]; rfl) hedge⟩

/-- **Draining a scope is a derivation**, however many blocks it may take from the queues. -/
theorem lays_of_ends_drain (steps : Nat) : Drains env (drain env steps) := by
  induction steps with
  | zero =>
    intro path p s' h
    simp only [drain, ends_bind, ends_get] at h
    obtain ⟨_, _, ⟨rfl, rfl⟩, h⟩ := h
    -- Without fuel the queue has to be empty, or the scope is not drained.
    cases hq : p.state.queue with
    | nil =>
      simp only [hq, List.isEmpty_nil, Bool.not_true, Bool.false_eq_true, if_false,
        ends_pure] at h
      obtain ⟨-, rfl⟩ := h
      exact ⟨_, .done hq⟩
    | cons b rest => simp [hq] at h
  | succ steps ih =>
    intro path p s' h
    simp only [drain, ends_bind, ends_get] at h
    obtain ⟨_, _, ⟨rfl, rfl⟩, h⟩ := h
    cases hq : p.state.queue with
    | nil =>
      simp only [hq, ends_pure] at h
      obtain ⟨-, rfl⟩ := h
      exact ⟨_, .done hq⟩
    | cons b rest =>
      simp only [hq, ends_bind, ends_modify, ends_isPlaced] at h
      obtain ⟨_, _, rfl, _, _, ⟨rfl, rfl⟩, h⟩ := h
      by_cases hb : b ∈ p.state.placed
      · have hc : p.state.placed.contains b = true := List.contains_iff_mem.mpr hb
        simp only [hc, Bool.not_true, Bool.false_eq_true, if_false] at h
        obtain ⟨placements, hl⟩ := ih path (p.map fun s => { s with queue := rest }) s' h
        exact ⟨placements, .skip hq hb hl⟩
      · have hc : p.state.placed.contains b = false := by simpa using hb
        simp only [hc, Bool.not_false, if_true, ends_bind] at h
        obtain ⟨_, s₁, hplace, hdrain⟩ := h
        obtain ⟨placed₁, hl₁⟩ := lays_of_ends_placeBlock ih
          (p := p.map fun s => { s with queue := rest }) hplace
        obtain ⟨placements, hl⟩ := ih path ⟨s₁, placed₁⟩ s' hdrain
        exact ⟨placements, .place hq hb hl₁ hl⟩

/-- The instruction that pushes the result of the body, null if none was set. -/
def Assembler.resultLoad (asm : Assembler) : Instruction :=
  match asm.slots.result? with
  | some slot => .loadLocal slot
  | none => .loadNull

/-- The exit block is placed behind all others. -/
structure ExitPlaced (env : LayoutEnv) (s s' : LayoutState) : Prop where
  placed : ∃ s₁, Ends (placeStatements env Graph.exit) (s.beginBlock Graph.exit) () s₁ ∧
    s' = s₁.mapAsm fun asm => (asm.emit asm.resultLoad).emit .return

theorem ends_placeExit (h : Ends (placeExit env) s u s') : ExitPlaced env s s' := by
  simp only [placeExit, ends_bind, ends_beginBlock, ends_write, ends_get] at h
  obtain ⟨_, _, rfl, _, s₁, hstatements, d, ⟨_, _, ⟨rfl, rfl⟩, hresult⟩, rfl⟩ := h
  refine ⟨s₁, hstatements, ?_⟩
  cases hr : s₁.draft.asm.slots.result? with
  | some slot =>
    simp only [hr, ends_bind, ends_emit] at hresult
    obtain ⟨_, _, rfl, rfl⟩ := hresult
    simp [LayoutState.mapAsm, Assembler.resultLoad, hr]
  | none =>
    simp only [hr, ends_bind, ends_emit] at hresult
    obtain ⟨_, _, rfl, rfl⟩ := hresult
    simp [LayoutState.mapAsm, Assembler.resultLoad, hr]

/-- **A successful layout is a derivation** of the root scope, followed by the exit block if
something goes there. -/
theorem lays_of_ends_placeAll (h : Ends (placeAll env) s u s') :
    ∃ p : Progress, Lays env (.drain []) ⟨s, []⟩ p ∧
      if p.state.exitTargeted then ExitPlaced env p.state s' else s' = p.state := by
  simp only [placeAll, ends_bind, ends_get] at h
  obtain ⟨_, s₁, hdrain, _, _, ⟨rfl, rfl⟩, hexit⟩ := h
  obtain ⟨placements, hl⟩ := lays_of_ends_drain (drainSteps env.graph) [] ⟨s, []⟩ s₁ hdrain
  refine ⟨⟨s₁, placements⟩, hl, ?_⟩
  cases hx : s₁.exitTargeted with
  | true =>
    simp only [hx, if_true] at hexit ⊢
    exact ends_placeExit hexit
  | false =>
    simp only [hx] at hexit ⊢
    exact (ends_pure.mp hexit).2.symm

end Runs

/-! ## How a layout is put together -/

section Composing

section Composition

variable {env : LayoutEnv} {enter : Enter} {scope : Scope} {s s₁ s₂ s₃ s' : LayoutState}
  {b seed next past : BlockId} {escapes others queue : List BlockId} {clause : CatchClause}
  {catches : List CatchClause} {tryStart tryEnd fuel : Nat} {drained : Scope → Arrange Unit}

/-! ### Blocks -/

/-- A block of its scope, with its statements and its edge. -/
theorem ends_placeBlock {e : EdgeId} {edge : Edge} (hr : innermost? env.ranges b = scope.range)
    (hs : Ends (placeStatements env b) (s.beginBlock b) () s₁) (he : env.graph.EndsBlock b e edge)
    (h : Ends (placeEdge env enter scope e edge) s₁ () s') :
    Ends (placeBlock env enter scope b) s () s' := by
  unfold placeBlock
  rw [if_neg (not_not.mpr hr), he.1]
  simp only [ends_bind, ends_beginBlock, he.2]
  exact ⟨⟨⟩, _, rfl, ⟨⟩, s₁, hs, h⟩

/-! ### Scopes -/

/-- A scope that starts at a block that is not placed. -/
theorem ends_enterScope (hb : seed ∉ s.placed)
    (h : Ends (drained scope) (s.openScope seed) () s₁) :
    Ends (enterScope drained scope seed) s s₁.escapes (s₁.closeScope s) := by
  have free : s.placed.contains seed = false := by simpa using hb
  simp only [enterScope, ends_bind, ends_isPlaced]
  refine ⟨_, _, ⟨rfl, rfl⟩, ?_⟩
  simp only [free, Bool.false_eq_true, if_false, ends_bind, ends_get, ends_set, ends_pure]
  exact ⟨_, _, ⟨rfl, rfl⟩, ⟨⟩, _, rfl, ⟨⟩, s₁, h, _, _, ⟨rfl, rfl⟩, ⟨⟩, _, rfl, rfl, rfl⟩

/-- A scope in which no block waits. -/
theorem ends_drain_nil (hq : s.queue = []) : Ends (drain env fuel scope) s () s := by
  cases fuel with
  | zero =>
    simp only [drain, ends_bind, ends_get]
    exact ⟨_, _, ⟨rfl, rfl⟩, by simp [hq]⟩
  | succ fuel =>
    simp only [drain, ends_bind, ends_get]
    refine ⟨_, _, ⟨rfl, rfl⟩, ?_⟩
    rw [hq]
    exact ends_pure.mpr ⟨rfl, rfl⟩

/-- A scope in which a block waits that is placed already. -/
theorem ends_drain_skip (hq : s.queue = b :: queue) (hb : b ∈ s.placed)
    (h : Ends (drain env fuel scope) { s with queue } () s') :
    Ends (drain env (fuel + 1) scope) s () s' := by
  have placed : s.placed.contains b = true := List.contains_iff_mem.mpr hb
  simp only [drain, ends_bind, ends_get]
  refine ⟨_, _, ⟨rfl, rfl⟩, ?_⟩
  rw [hq]
  simp only [ends_bind, ends_modify, ends_isPlaced]
  refine ⟨⟨⟩, _, rfl, _, _, ⟨rfl, rfl⟩, ?_⟩
  simpa only [placed, Bool.not_true, Bool.false_eq_true, if_false] using h

/-- **A scope from its next block on.** -/
theorem ends_drain_place (hq : s.queue = b :: queue) (hb : b ∉ s.placed)
    (hplace : Ends (placeBlock env (enterScope (drain env fuel)) scope b) { s with queue } () s₁)
    (h : Ends (drain env fuel scope) s₁ () s') : Ends (drain env (fuel + 1) scope) s () s' := by
  have free : s.placed.contains b = false := by simpa using hb
  simp only [drain, ends_bind, ends_get]
  refine ⟨_, _, ⟨rfl, rfl⟩, ?_⟩
  rw [hq]
  simp only [ends_bind, ends_modify, ends_isPlaced]
  refine ⟨⟨⟩, _, rfl, _, _, ⟨rfl, rfl⟩, ?_⟩
  simp only [free, Bool.not_false, if_true, ends_bind]
  exact ⟨⟨⟩, s₁, hplace, h⟩

/-! ### The parts of a `try` -/

/-- A `catch` handler, and those behind it. -/
theorem ends_placeCatches_cons
    (hbind : Ends (write (bindCaught env clause)) (s.beginHandler 1) () s₁)
    (henter : Ends (enter ⟨.catch, some ⟨clause.target, catchEnd past catches⟩⟩ clause.target) s₁
      escapes s₂)
    (h : Ends (placeCatches env enter tryStart tryEnd past catches)
      (s₂.endHandler (⟨.catch clause.type, tryStart, tryEnd, s.asm.offset, ·⟩)) others s') :
    Ends (placeCatches env enter tryStart tryEnd past (clause :: catches)) s (escapes ++ others)
      s' := by
  obtain ⟨d, hd, rfl⟩ := ends_write.mp hbind
  simp only [placeCatches, ends_bind, ends_pinnedOffset, ends_write, ends_onAssembler, ends_modify,
    ends_pure]
  exact ⟨_, _, ⟨rfl, rfl⟩, ⟨⟩, _, ⟨d, ⟨⟨⟩, _, rfl, hd⟩, rfl⟩, escapes, s₂, henter, _, _, ⟨rfl, rfl⟩,
    ⟨⟩, _, rfl, others, s', h, rfl, rfl⟩

/-- A `finally` handler. -/
theorem ends_placeFinally
    (henter : Ends (enter ⟨.finally next, some ⟨seed, next⟩⟩ seed) (s.beginHandler 0) escapes s₁) :
    Ends (placeFinally enter tryStart seed next) s ()
      (s₁.endHandler (⟨.finally, tryStart, s.asm.offset, s.asm.offset, ·⟩)) := by
  simp only [placeFinally, ends_bind, ends_pinnedOffset, ends_write, ends_onAssembler, ends_modify]
  exact ⟨_, _, ⟨rfl, rfl⟩, ⟨⟩, _, ⟨_, rfl, rfl⟩, escapes, s₁, henter, _, _, ⟨rfl, rfl⟩, rfl⟩

/-- **A body with its handlers.** -/
theorem ends_placeTry {finally? : Option BlockId} {s₄ : LayoutState}
    (hbody : Ends (enter ⟨.body, some ⟨seed, catchEnd (finally?.getD next) catches⟩⟩ seed)
      (s.mapAsm (·.pin)) escapes s₁)
    (hcatches : Ends (placeCatches env enter s.asm.offset s₁.asm.offset (finally?.getD next)
      catches) (s₁.mapAsm (·.pin)) others s₂)
    (hfinally : finally? = none ∧ s₃ = s₂ ∨ ∃ handler, finally? = some handler ∧
      Ends (placeFinally enter s.asm.offset handler next) s₂ () s₃)
    (hescapes : Ends (enqueueEscapes env scope (escapes ++ others)) s₃ () s₄)
    (hnext : Ends (enqueue env scope next) s₄ () s') :
    Ends (placeTry env enter scope seed catches finally? next) s () s' := by
  simp only [placeTry, ends_bind, ends_pinnedOffset]
  refine ⟨_, _, ⟨rfl, rfl⟩, escapes, s₁, hbody, _, _, ⟨rfl, rfl⟩, others, s₂, hcatches, ?_⟩
  obtain ⟨rfl, rfl⟩ | ⟨handler, rfl, hfinally⟩ := hfinally
  · exact ends_bind.mpr ⟨⟨⟩, s₄, hescapes, hnext⟩
  · exact ends_bind.mpr ⟨⟨⟩, s₃, hfinally, ends_bind.mpr ⟨⟨⟩, s₄, hescapes, hnext⟩⟩

/-! ### The exit block -/

theorem ends_placeExit_of_statements
    (h : Ends (placeStatements env Graph.exit) (s.beginBlock Graph.exit) () s₁) :
    Ends (placeExit env) s ()
      (s₁.mapAsm fun asm => (asm.emit asm.resultLoad).emit .return) := by
  simp only [placeExit, ends_bind, ends_beginBlock, ends_write, ends_get]
  refine ⟨⟨⟩, _, rfl, ⟨⟩, s₁, h, _, ⟨_, _, ⟨rfl, rfl⟩, ?_⟩, rfl⟩
  cases hr : s₁.draft.asm.slots.result? with
  | some slot =>
    simp only [ends_bind, ends_emit]
    exact ⟨⟨⟩, _, rfl, by simp [Assembler.resultLoad, hr]⟩
  | none =>
    simp only [ends_bind, ends_emit]
    exact ⟨⟨⟩, _, rfl, by simp [Assembler.resultLoad, hr]⟩

/-- **A whole layout**: the root scope, and the exit block if something goes there. -/
theorem ends_placeAll (hroot : Ends (drain env (drainSteps env.graph) .root) s () s₁)
    (hexit : s₁.exitTargeted = false ∧ s' = s₁ ∨
      s₁.exitTargeted = true ∧ Ends (placeExit env) s₁ () s') : Ends (placeAll env) s () s' := by
  simp only [placeAll, ends_bind, ends_get]
  refine ⟨⟨⟩, s₁, hroot, _, _, ⟨rfl, rfl⟩, ?_⟩
  obtain ⟨hx, rfl⟩ | ⟨hx, hexit⟩ := hexit
  · simp [hx]
  · simpa [hx] using hexit

end Composition

end Composing

end StackScript
