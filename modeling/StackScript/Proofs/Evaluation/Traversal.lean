import StackScript.Proofs.Evaluation.Walks
import StackScript.Proofs.Machine.Moves

/-!
# Code that walks its graph

Where no edge opens a scope, the code of a graph walks the graph: from the start of a block it goes
through the code of this block alone, and comes to where the walk goes on, to the end of the walk, or
to a request that is never answered. A block whose code is empty is passed without a step, but then
the next block is one that was laid out later, and this cannot go on forever.

## Main definitions

* `Setting.LaysOut`: a setting with the code of a graph without scopes
* `Setting.StandsAt`: a frame is at the start of a block
* `Body.Owns`, `Body.place`: where the code of a block is, and its place among the blocks
* `Body.Passes`: a body executes blocks, one after the other
* `Turns`: what the code of a block comes to

## Main results

* `Setting.LaysOut.turns`: the code of a block follows its meaning
* `Setting.LaysOut.exists_passes`, `Setting.LaysOut.passes_of_finishes`: the code goes where the walk
  goes, and ends as it ends
-/

namespace StackScript

open Emit Arrange
open Assembler (Evolves)

variable {body : Body}

/-! ## Blocks one behind the other -/

section Strands

variable {σ : Type} (c : Setting σ) {env : LayoutEnv} {b : BlockId} {e : EdgeId} {edge : Edge}
  {s front s' : LayoutState} {u : PUnit}

/-- The statements of a block are written into its code. -/
theorem statements_of_ends_placeStatements (h : Ends (placeStatements env b) s u s') :
    ∃ d, Ends (emitStatements env.body (env.graph.statements b)) s.draft () d ∧
      s' = { s with draft := d } := by
  obtain ⟨block, d, found, statements, -, rfl⟩ := ends_placeStatements h
  refine ⟨d, ?_, rfl⟩
  rwa [Graph.statements, found]

theorem nextSite_of_ends_placeStatements (h : Ends (placeStatements env b) s u s') :
    s'.draft.nextSite = ((meaningStatements c.world env.body
      (env.graph.statements b)).runFrom s.draft.nextSite).2 := by
  obtain ⟨d, statements, rfl⟩ := statements_of_ends_placeStatements h
  have means : Means c 0 (emitStatements env.body (env.graph.statements b)) [] _ _ fun _ => [] :=
    means_emitStatements (env.graph.statements b)
  exact means.numbers _ _ _ statements

theorem nextSite_beginBlock (s : LayoutState) (b : BlockId) :
    (s.beginBlock b).draft.nextSite = s.draft.nextSite :=
  (jumped_withLabel (s := { s with placed := b :: s.placed })).nextSite

/-- A block draws the numbers of its call sites. -/
theorem LaysBlock.nextSite (h : LaysBlock env b e edge s front s') :
    s'.draft.nextSite =
      ((env.graph.turn c.world env.body .idle b).runFrom s.draft.nextSite).2 := by
  obtain ⟨enter, ends⟩ := h.edge
  rw [nextSite_of_ends_placeEdge c h.plain ends .idle,
    nextSite_of_ends_placeStatements c h.statements, nextSite_beginBlock,
    runFrom_turn_of_ending h.ends.ending]

section Statements

variable {c} {f : Frame} {w : σ} {vars vars' : Vars} {w' : σ}
  {r : Except DispatchError Unit} (h : Ends (placeStatements env b) s u s')
  (slots : s.asm.slots.Sound) (behind : s'.asm.Evolves c.final)
include h slots behind

/-- The code of the statements of a block. -/
theorem comes_of_ends_placeStatements (sound : s.asm.Sound) (hpc : f.pc = s.asm.code.size)
    (hstack : f.stack = []) (hvars : f.Agrees c.final.slots vars) :
    Comes c s.asm s'.asm [] (fun _ => []) f w (((meaningStatements c.world env.body
      (env.graph.statements b)).runFrom s.draft.nextSite).1.outcome vars w) := by
  obtain ⟨d, statements, rfl⟩ := statements_of_ends_placeStatements h
  have means : Means c 0 (emitStatements env.body (env.graph.statements b)) [] _ _ fun _ => [] :=
    means_emitStatements (env.graph.statements b)
  exact (means.follows _ _ _ sound slots statements behind).comes f [] vars w hpc hstack hvars

/-- Where the code has no slot for the result, no statement sets it. -/
theorem result_of_ends_placeStatements
    (none : ∀ (id : Nat) slot, c.final.slots.slots[id]? = some slot → slot.role ≠ .result)
    {n : SiteId} (ends : ((meaningStatements c.world env.body
      (env.graph.statements b)).runFrom n).1.outcome vars w = some (r, vars', w')) :
    vars'.result = vars.result := by
  obtain ⟨d, statements, rfl⟩ := statements_of_ends_placeStatements h
  have spares : ∀ statement ∈ env.graph.statements b, ∀ value,
      statement.action ≠ .return value := by
    intro statement mem value returns
    obtain ⟨id, slot, hslot, hr⟩ := exists_resultSlot slots statements ⟨statement, mem, value, returns⟩
    exact none id slot (behind.slots_within id slot hslot) hr
  exact ((alike_meaningStatements spares n).keeps trivial ends).2.2.1

end Statements

/-- The start of a block starts no loop. -/
theorem enumerators_beginBlock (s : LayoutState) (b : BlockId) :
    (s.beginBlock b).enumerators = s.enumerators :=
  (jumped_withLabel (s := { s with placed := b :: s.placed })).enumerators

namespace Strand

variable (h : Strand env s s') (ready : s.Ready) (slots : s.asm.slots.Sound)
include h ready slots

/-- **The blocks of a strand draw the numbers** of their call sites in their order. -/
theorem nextSite (none : s.placed = []) :
    s'.draft.nextSite =
      env.graph.sitesBehind c.world env.body s.draft.nextSite s'.placed.reverse := by
  induction h with
  | refl =>
    rw [none]
    rfl
  | requeue _ ih => exact ih
  | block strand lays ih =>
    have before := strand.continues ready slots
    rw [lays.nextSite c, ih, lays.placed before.ready before.slots, List.reverse_cons,
      Graph.sitesBehind, Graph.sitesBehind, List.foldl_append]
    rfl

/-- **The loops of a strand** have slots of their own. -/
theorem looped (looped : s.Looped) : s'.Looped := by
  induction h with
  | refl => exact looped
  | requeue _ ih => exact ⟨ih.slot, ih.distinct⟩
  | @block s₁ front s₂ b e edge strand lays ih =>
    have before := strand.continues ready slots
    obtain ⟨begun, written, -⟩ := lays.stages before.ready before.slots
    have inner : (s₁.beginBlock b).Looped := ih.same (enumerators_beginBlock s₁ b) begun.evolves
    have fronted : front.Looped := by
      obtain ⟨d, -, same⟩ := statements_of_ends_placeStatements lays.statements
      exact inner.same (by rw [same]) written.evolves
    obtain ⟨enter, ends⟩ := lays.edge
    exact fronted.placeEdge written.ready written.slots lays.plain ends

end Strand

end Strands

/-! ## Settings with the code of a graph -/

/-- The code of a setting is that of a graph without scopes: blocks one behind the other, and the
exit if something goes there. -/
structure Setting.LaysOut {σ : Type} (c : Setting σ) (env : LayoutEnv) (draft : Draft)
    (blocks last : LayoutState) : Prop where
  built : env.graph.Built
  plain : env.graph.Unguarded
  written : Assembler.Evolves .empty draft.asm
  straight : ∀ i ∈ draft.asm.code, i.isPlain = true
  entered : ∃ e edge front s₁,
    LaysBlock env Graph.start e edge { LayoutState.start draft with queue := [] } front s₁ ∧
      Strand env s₁ blocks
  exit : ExitPlaced env blocks last ∨ last = blocks
  complete : Complete env.graph last
  final : c.final = last.asm
  locals : c.body.locals = c.final.slots.slots
  offsets : c.body.blockOffsets = last.blockOffsets.toList
  regions : c.body.regions = []

/-- The code of a block: it starts where the block is listed, and stops where the next one starts, or
at the end of the body. -/
def Body.Owns (body : Body) (b : BlockId) (start stop : Nat) : Prop :=
  ∃ before after, body.blockOffsets = before ++ (b, start) :: after ∧
    stop = (after.head?.map (·.2)).getD body.code.size

/-- Where a block stands in the list of the blocks. -/
def Body.place (body : Body) (b : BlockId) : Nat := (body.blockOffsets.map (·.1)).idxOf b

theorem Body.place_lt_length {b : BlockId} {o : Nat} (listed : (b, o) ∈ body.blockOffsets) :
    body.place b < body.blockOffsets.length := by
  rw [Body.place, ← List.length_map (·.1)]
  exact List.idxOf_lt_length_of_mem (List.mem_map_of_mem listed)

theorem Body.Owns.mem {b : BlockId} {start stop : Nat} (h : body.Owns b start stop) :
    (b, start) ∈ body.blockOffsets := by
  obtain ⟨before, after, same, -⟩ := h
  rw [same]
  exact List.mem_append_right _ List.mem_cons_self

/-- A block in the code: its layout stands between what comes in front of it and what comes behind
it. -/
structure Setting.Writes {σ : Type} (c : Setting σ) (env : LayoutEnv) (draft : Draft)
    (last : LayoutState) (b : BlockId) (e : EdgeId) (edge : Edge) (start front behind : LayoutState) :
    Prop where
  before : Strand env (.start draft) start
  lays : LaysBlock env b e edge start front behind
  toStart : Continues (.start draft) start
  laid : start.Laid env.graph
  toLast : Continues behind last
  suffix : b :: start.placed <:+ last.placed
  stops : ∃ n, c.body.Owns b (start.beginBlock b).asm.code.size n ∧ c.EndsAt behind.asm n ∧
    ∀ m, behind.asm.Lasts m → m ≤ n

/-- The walk through the graph of the code. -/
def Setting.course {σ : Type} (c : Setting σ) (env : LayoutEnv) (draft : Draft) : Course σ where
  world := c.world
  env := env.body
  graph := env.graph
  order := c.body.blockOffsets.map (·.1)
  firstSite := draft.nextSite

/-- A frame is at the start of a block. Where the code has no slot for the result, none is set. -/
structure Setting.StandsAt {σ : Type} (c : Setting σ) (seats : EdgeId → Option LocalId) (f : Frame)
    (b : BlockId) (vars : Vars) (loops : Loops) : Prop where
  listed : (b, f.pc) ∈ c.body.blockOffsets
  stands : c.Stands seats f f.pc vars loops
  result : (∀ (id : Nat) slot, c.final.slots.slots[id]? = some slot → slot.role ≠ .result) →
    vars.result = .unset

/-- What a body does on the way from one step to another: it executes blocks, one after the other,
each from a state of the world. From the start of a block it goes forward through the code of this
block, until it leaves it by the last of its steps. A block without code is passed without a step,
and then the next one is listed behind it. -/
inductive Body.Passes {σ : Type} (body : Body) (world : World σ) :
    List (BlockId × σ) → Step × σ → Step × σ → Prop
  | arrives (x) : Passes body world [] x x
  | executes {b f n s y z visited} : body.Owns b f.pc n → Emerges world body n (.running f, s) y →
      Passes body world visited y z → Passes body world ((b, s) :: visited) (.running f, s) z
  | skips {b f s z visited} : body.Owns b f.pc f.pc →
      (∀ next ∈ visited.head?, body.place b < body.place next.1) →
      Passes body world visited (.running f, s) z →
      Passes body world ((b, s) :: visited) (.running f, s) z

theorem Body.Passes.reaches {σ : Type} {world : World σ} {visited : List (BlockId × σ)}
    {x y : Step × σ} (h : body.Passes world visited x y) : Reaches world body x y := by
  induction h with
  | arrives => exact .refl _
  | executes _ emerges _ ih => exact emerges.advances.to_reflTransGen.trans ih
  | skips _ _ _ ih => exact ih

/-- What a frame in the code of a block comes to, if this code stops at a place: to the block where the
walk goes on, to the end of the routine, or to a request that is never answered. A block that is
reached without a step is listed later. -/
inductive Turns {σ : Type} (c : Setting σ) (seats : EdgeId → Option LocalId) (b : BlockId) (n : Nat)
    (f : Frame) (s : σ) : Option (Except DispatchError Turn × Vars × σ) → Prop
  | goesOn {t loops vars s' g} : c.Sweeps n (.running f, s) (.running g, s') →
      c.body.place b < c.body.place t ∨ c.Emerges n (.running f, s) (.running g, s') →
      c.StandsAt seats g t vars loops → Turns c seats b n f s (some (.ok (.goesOn t loops), vars, s'))
  | returns {value vars s'} : c.Emerges n (.running f, s) (.returned value, s') →
      Turns c seats b n f s (some (.ok (.returns value), vars, s'))
  | fails {e vars s'} : c.Emerges n (.running f, s) (.failed e, s') →
      Turns c seats b n f s (some (.error e, vars, s'))
  | waits {r g s'} : c.Climbs (.running f, s) (.asking r g, s') → (c.world r).run.run s' = none →
      Turns c seats b n f s none

section Turns

variable {σ α β : Type} {c : Setting σ} {seats : EdgeId → Option LocalId} {b : BlockId} {n : Nat}
  {f g : Frame} {s s' : σ} {vars : Vars} {r : Option (Except DispatchError Turn × Vars × σ)}

/-- In front of the code, steps that bring the frame there. -/
theorem Turns.behind (reach : c.Climbs (.running f, s) (.running g, s'))
    (h : Turns c seats b n g s' r) : Turns c seats b n f s r := by
  cases h with
  | goesOn sweeps progress stands =>
    exact .goesOn (sweeps.behind reach) (progress.imp_right (.behind reach)) stands
  | returns emerges => exact .returns (emerges.behind reach)
  | fails emerges => exact .fails (emerges.behind reach)
  | waits reach' unanswered => exact .waits (reach.trans reach') unanswered

/-- Without regions, an error ends the body. -/
theorem Setting.emerges_of_raise (none : c.body.regions = []) {e : DispatchError}
    (h : c.Sweeps n (.running f, s) (c.body.raise g e, s')) :
    c.Emerges n (.running f, s) (.failed e, s') := by
  rw [Body.raise_of_regions none] at h
  have ended : c.Sweeps n (.running f, s) (Step.ended (.error e), s') := h
  exact ended.emerges_of_ended

/-- Behind a stretch of code that follows a computation, the rest of the block. -/
theorem Comes.turns {a a' : Assembler} {m : Eval σ α} {k : α → Eval σ Turn} {post : α → List Slot}
    (none : c.body.regions = []) (h : Comes c a a' [] post f s (m.outcome vars s))
    (ahead : a'.code.size ≤ n)
    (h' : ∀ {x vars' s' g}, m.outcome vars s = some (.ok x, vars', s') → g.pc = a'.code.size →
      g.stack = post x → g.Agrees c.final.slots vars' → f.Beside a.slots c.final.slots g →
      Turns c seats b n g s' ((k x).outcome vars' s')) :
    Turns c seats b n f s ((m >>= k).outcome vars s) := by
  rw [Eval.outcome_bind]
  revert h h'
  rcases m.outcome vars s with _ | ⟨e | x, vars', s'⟩
  · intro h _
    cases h with
    | waits reach unanswered => exact .waits reach unanswered
  · intro h _
    cases h with
    | fails reach => exact .fails (c.emerges_of_raise none (reach.mono ahead))
  · intro h h'
    cases h with
    | ends reach hpc hstack hvars beside =>
      rw [List.append_nil] at hstack
      exact .behind reach (h' rfl hpc hstack hvars beside)

/-- Behind the edge of a block, the block where it goes on. -/
theorem Departs.turns {later : BlockId → Prop} {out : BlockId → Nat → Prop}
    {way : Eval σ (BlockId × Loops)} (none : c.body.regions = [])
    (h : Departs c seats n later out f s (way.outcome vars s))
    (h' : ∀ {t loops vars' s' g o}, way.outcome vars s = some (.ok (t, loops), vars', s') →
      out t o → c.Stands seats g o vars' loops →
      (later t → c.body.place b < c.body.place t) ∧ c.StandsAt seats g t vars' loops) :
    Turns c seats b n f s
      ((way >>= fun (t, loops) => pure (Turn.goesOn t loops)).outcome vars s) := by
  rw [Eval.outcome_bind]
  revert h h'
  rcases way.outcome vars s with _ | ⟨e | ⟨t, loops⟩, vars', s'⟩
  · intro h _
    cases h with
    | waits reach unanswered => exact .waits reach unanswered
  · intro h _
    cases h with
    | fails reach => exact .fails (c.emerges_of_raise none reach)
  · intro h h'
    cases h with
    | goes sweeps progress at_ stands =>
      obtain ⟨listed, standsAt⟩ := h' rfl at_ stands
      exact .goesOn sweeps (progress.imp_left listed) standsAt

/-- The code behind the last statements returns the result. Where there is no slot for it, none is
set. -/
theorem emerges_returned {asm : Assembler} (sound : asm.Sound)
    (final : c.final = (asm.emit asm.resultLoad).emit .return) (hpc : g.pc = asm.code.size)
    (hstack : g.stack = []) (hvars : g.Agrees c.final.slots vars)
    (none : (∀ (id : Nat) slot, c.final.slots.slots[id]? = some slot → slot.role ≠ .result) →
      vars.result = .unset) :
    c.Emerges c.body.code.size (.running g, s) (.returned vars.result.toValue, s) := by
  have slots : c.final.slots = asm.slots := by rw [final]; simp
  have plain : asm.resultLoad.target? = Option.none := by
    unfold Assembler.resultLoad
    split <;> rfl
  have load : c.Reads (asm.emit asm.resultLoad) :=
    .of_evolves sound (.single (.emit plain)) (final ▸ .single (.emit rfl))
  have return_ : c.Reads ((asm.emit asm.resultLoad).emit .return) :=
    ⟨final ▸ c.sound, final ▸ .refl _⟩
  have pushed : g.execute asm.resultLoad = .ok (.next { g with stack := [vars.result] }) := by
    unfold Assembler.resultLoad
    obtain ⟨id, slot, -, found, hid, hr⟩ | ⟨-, found, others⟩ := Slots.result_cases asm.slots
    · rw [found]
      have there := hvars.result id slot (slots ▸ hid) hr
      simp only [Frame.execute, Frame.getLocal, there, hstack, Frame.push]
      rfl
    · rw [found, none fun id slot hid => others id slot (slots ▸ hid)]
      simp only [Frame.execute, hstack, Frame.push, Frame.pushValue]
      rfl
  -- Two instructions: the result is pushed, or null where it has no slot, and returned.
  have first : c.body.step g = .running { g with stack := [vars.result], pc := g.pc + 1 } :=
    step_next (hpc ▸ load.last plain) pushed
  have last : c.body.code[g.pc + 1]? = some .return := by
    have size : (asm.emit asm.resultLoad).code.size = g.pc + 1 := by simp [hpc]
    exact size ▸ return_.last rfl
  have second : c.body.step { g with stack := [vars.result], pc := g.pc + 1 } =
      .returned vars.result.toValue := by
    simp only [Body.step, last]
    rfl
  have inside : g.pc + 1 < c.body.code.size := (Array.getElem?_eq_some_iff.mp last).1
  exact .behind (.next first (Nat.lt_succ_self _) (.refl _)) (.step inside second)

end Turns

namespace Setting.LaysOut

variable {σ : Type} {c : Setting σ} {env : LayoutEnv} {draft : Draft} {blocks last : LayoutState}
  {b t : BlockId} {o pc : Nat}

section Layout

variable (h : c.LaysOut env draft blocks last) {f : Frame} {n : Nat} {p : Position σ}
    {s : LayoutState} {vars : Vars}
include h

theorem strand : Strand env (.start draft) blocks := by
  obtain ⟨e, edge, front, s₁, first, rest⟩ := h.entered
  exact (Strand.block (.requeue .refl) first).trans rest

theorem toBlocks : Continues (.start draft) blocks := by
  obtain ⟨ready, slots, -⟩ := begins_start h.written
  exact h.strand.continues ready slots

theorem behindBlocks : Continues blocks last ∧
    (last.placed = blocks.placed ∨ last.placed = Graph.exit :: blocks.placed) := by
  have before := h.toBlocks
  obtain exit | rfl := h.exit
  · obtain ⟨continues, -, placed, -⟩ := exit.continues before.ready before.slots
    exact ⟨continues, .inr placed⟩
  · exact ⟨.refl before.ready before.slots, .inl rfl⟩

theorem prefixBlocks : blocks.blockOffsets.toList <+: last.blockOffsets.toList := by
  have before := h.toBlocks
  obtain exit | rfl := h.exit
  · rw [exit.blockOffsets]
    exact List.prefix_append _ _
  · exact List.prefix_rfl

/-- Control on the way to a block that is placed is at its start. -/
theorem listed_of_headsFor {labels : List (BlockId × Label)}
    (heads : c.HeadsFor env.ranges Scope.root labels t pc)
    (more : ∀ b l, labels.lookup b = some l → last.labels.lookup b = some l)
    (ht : t ∈ last.placed) : (t, pc) ∈ c.body.blockOffsets := by
  cases heads with
  | block hr _ hl placed =>
    have listed : t ∈ last.blockOffsets.toList.map (·.1) := by
      rw [h.complete.laid.blocks]
      exact List.mem_reverse.mpr ht
    obtain ⟨⟨t', o⟩, mem, rfl⟩ := List.mem_map.mp listed
    obtain ⟨l', hl', place⟩ := h.complete.laid.places _ _ mem
    rw [more _ _ hl] at hl'
    cases hl'
    rw [h.final] at placed
    rw [h.offsets, placed.unique place]
    exact mem
  | leave hr =>
    have left := route_leave hr
    cases left
  | endFinally hr =>
    have kind := route_endFinally hr
    cases kind

/-- Where the next block begins, the code of a layout stops. -/
theorem endsAt_of_begins (ready : s.Ready) (sound : s.asm.Sound) (begins : s.BeginsAt n last) :
    c.EndsAt s.asm n ∧ ∀ m, s.asm.Lasts m → m ≤ n := by
  obtain ⟨b, queue, rfl, toLast, listed⟩ := begins
  have ready' : LayoutState.Ready { s with queue } := ready
  have fault : (LayoutState.beginBlock { s with queue } b).asm.fault = none :=
    toLast.evolves.fault (h.final ▸ (Assembler.finish_cases c.finished).1)
  obtain ⟨evolves, -⟩ := extends_beginBlock ready' b
  refine ⟨?_, fun m lasts => (lasts.evolves evolves fault).1⟩
  obtain ⟨l, begun⟩ := begun_beginBlock ready' sound fault
  obtain same | ⟨size, -, awaits, -⟩ := begun.elided
  · exact same ▸ .whole
  · obtain ⟨l', name, place⟩ := h.complete.laid.places b _
      (listed.subset (List.mem_append_right _ (List.mem_singleton_self _)))
    obtain rfl : l = l' := Option.some.inj ((toLast.labels b l begun.name).symm.trans name)
    exact .elided size awaits begun.new (h.final ▸ place)

/-- **The code of a block stops** where the next one starts, or at the end. -/
theorem stops_of_strand {before : List (BlockId × Nat)} (rest : Strand env s blocks)
    (ready : s.Ready) (slots : s.asm.slots.Sound) (sound : s.asm.Sound)
    (listed : s.blockOffsets.toList = before ++ [(b, o)]) :
    ∃ n, c.body.Owns b o n ∧ c.EndsAt s.asm n ∧ ∀ m, s.asm.Lasts m → m ≤ n := by
  have next : (∃ n, s.BeginsAt n last) ∨
      last.asm = s.asm ∧ last.blockOffsets = s.blockOffsets := by
    obtain ⟨queue, rfl⟩ | ⟨n, begins⟩ := rest.begins ready slots
    · obtain exit | rfl := h.exit
      · exact .inl (exit.beginsAt ready slots)
      · exact .inr ⟨rfl, rfl⟩
    · exact .inl ⟨n, begins.trans h.behindBlocks.1 h.prefixBlocks⟩
  obtain ⟨n, begins⟩ | ⟨same, offsets⟩ := next
  · refine ⟨n, ?_, h.endsAt_of_begins ready sound begins⟩
    obtain ⟨t, queue, -, -, after, all⟩ := begins
    refine ⟨before, (t, n) :: after, ?_, rfl⟩
    rw [h.offsets, ← all, listed]
    simp
  · have size : c.body.code.size = s.asm.code.size := by
      rw [c.code, Assembler.finish_size c.sound c.finished, h.final, same]
    refine ⟨s.asm.code.size, ⟨before, [], ?_, size.symm⟩, .whole, fun m lasts => lasts.1⟩
    rw [h.offsets, offsets, listed]

/-- **Every block but the exit** is written somewhere in the code. -/
theorem exists_writes (hb : b ∈ last.placed) (inner : b ≠ Graph.exit) :
    ∃ e edge start front behind, c.Writes env draft last b e edge start front behind := by
  obtain ⟨ready, slots, -⟩ := begins_start h.written
  obtain ⟨toLast, placed⟩ := h.behindBlocks
  have mem : b ∈ blocks.placed := by
    obtain same | same := placed
    · rwa [same] at hb
    · rw [same] at hb
      exact (List.mem_cons.mp hb).resolve_left inner
  obtain ⟨e, edge, start, front, behind, before, lays, rest⟩ :=
    h.strand.exists_laysBlock ready slots mem (by simp [LayoutState.start])
  have toStart := before.continues ready slots
  have block := lays.continues toStart.ready toStart.slots
  have onward := rest.continues block.ready block.slots
  have fault : last.asm.fault = none := h.final ▸ (Assembler.finish_cases c.finished).1
  have evolves := (block.evolves.trans onward.evolves).trans toLast.evolves
  have sound : draft.asm.Sound :=
    h.written.sound Assembler.sound_empty ((toStart.evolves.trans evolves).fault fault)
  have laid := before.laid ready slots (laid_start sound) (evolves.fault fault)
  have behind_sound : behind.asm.Sound :=
    block.evolves.sound laid.sound ((onward.evolves.trans toLast.evolves).fault fault)
  have within : b :: start.placed <:+ blocks.placed := by
    rw [← lays.placed toStart.ready toStart.slots]
    exact rest.placed block.ready block.slots
  refine ⟨e, edge, start, front, behind, before, lays, toStart, laid, onward.trans toLast, ?_,
    h.stops_of_strand rest block.ready block.slots behind_sound
      (lays.blockOffsets toStart.ready toStart.slots)⟩
  obtain same | same := placed
  · exact same ▸ within
  · exact same ▸ within.trans (List.suffix_cons _ _)

/-- The blocks are listed in the order of their layout, each once. -/
theorem order : c.body.blockOffsets.map (·.1) = last.placed.reverse := by
  rw [h.offsets]
  exact h.complete.laid.blocks

theorem nodup_order : (c.body.blockOffsets.map (·.1)).Nodup := by
  rw [h.order]
  exact List.nodup_reverse.mpr h.complete.laid.nodup

theorem offset_unique {o o' : Nat} (ho : (b, o) ∈ c.body.blockOffsets)
    (ho' : (b, o') ∈ c.body.blockOffsets) : o = o' :=
  congrArg Prod.snd (List.inj_on_of_nodup_map h.nodup_order ho ho' rfl)

/-- Blocks that are laid out later are listed behind. -/
theorem place_lt {before : List BlockId} (suffix : b :: before <:+ last.placed)
    (later : t ∉ b :: before) : c.body.place b < c.body.place t := by
  obtain ⟨after, same⟩ := suffix
  obtain ⟨other, fresh⟩ : t ≠ b ∧ t ∉ before := by simpa using later
  have nodup := h.complete.laid.nodup
  rw [← same] at nodup
  have first : b ∉ before := (List.nodup_cons.mp (List.nodup_append.mp nodup).2.1).1
  have order : c.body.blockOffsets.map (·.1) = before.reverse ++ b :: after.reverse := by
    rw [h.order, ← same]
    simp
  rw [Body.place, Body.place, order, List.idxOf_append_of_notMem (by simpa using first),
    List.idxOf_append_of_notMem (by simpa using fresh), List.idxOf_cons_self,
    List.idxOf_cons_ne _ (Ne.symm other)]
  exact Nat.add_lt_add_left (Nat.succ_pos _) _

/-- The code of a block stops in front of the blocks behind it. -/
theorem le_of_place_lt {o' : Nat} (owns : c.body.Owns b o n)
    (behind : c.body.place b < c.body.place t) (listed : (t, o') ∈ c.body.blockOffsets) :
    n ≤ o' := by
  obtain ⟨before, after, same, rfl⟩ := owns
  have nodup := h.nodup_order
  have ordered : c.body.blockOffsets.Pairwise fun x y => x.2 ≤ y.2 :=
    h.offsets ▸ h.complete.laid.ordered
  rw [Body.place, Body.place] at behind
  rw [same] at listed ordered
  rw [same, List.map_append, List.map_cons] at nodup behind
  have first : b ∉ before.map (·.1) := fun mem =>
    (List.nodup_append.mp nodup).2.2 b mem b List.mem_cons_self rfl
  rw [List.idxOf_append_of_notMem first, List.idxOf_cons_self, Nat.add_zero] at behind
  have mem : (t, o') ∈ after := by
    obtain front | rest := List.mem_append.mp listed
    · have inside := List.mem_map_of_mem (f := (·.1)) front
      rw [List.idxOf_append_of_mem inside] at behind
      exact (Nat.lt_asymm behind (List.idxOf_lt_length_of_mem inside)).elim
    · refine (List.mem_cons.mp rest).resolve_left ?_
      rintro ⟨⟩
      rw [List.idxOf_append_of_notMem first, List.idxOf_cons_self] at behind
      exact Nat.lt_irrefl _ behind
  obtain ⟨-, behind_ordered, -⟩ := List.pairwise_append.mp ordered
  cases after with
  | nil => cases mem
  | cons next rest =>
    obtain rfl | mem := List.mem_cons.mp mem
    · exact Nat.le_refl _
    · exact (List.pairwise_cons.mp (List.pairwise_cons.mp behind_ordered).2).1 _ mem

/-- The numbers of the call sites of a block are behind those of the blocks in front of it. -/
theorem site_of_suffix {before : List BlockId} (suffix : b :: before <:+ last.placed) :
    (c.course env draft).site b =
      env.graph.sitesBehind c.world env.body draft.nextSite before.reverse := by
  obtain ⟨after, same⟩ := suffix
  have nodup := h.complete.laid.nodup
  rw [← same] at nodup
  have fresh : b ∉ before := (List.nodup_cons.mp (List.nodup_append.mp nodup).2.1).1
  have front : (c.course env draft).order.takeWhile (· ≠ b) = before.reverse := by
    show (c.body.blockOffsets.map (·.1)).takeWhile (· ≠ b) = _
    rw [h.order, ← same, List.reverse_append, List.reverse_cons, List.append_assoc,
      List.takeWhile_append_of_pos]
    · simp
    · intro t ht
      have other : t ≠ b := by
        rintro rfl
        exact fresh (List.mem_reverse.mp ht)
      simpa using other
  rw [Course.site, front]
  rfl

/-- The loops of the code have slots of their own. -/
theorem seats : c.Seats (last.enumerators.lookup ·) := by
  obtain ⟨ready, slots, -⟩ := begins_start h.written
  have none : (LayoutState.start draft).Looped := ⟨nofun, nofun⟩
  have looped := h.strand.looped ready slots none
  have last_looped : last.Looped := by
    obtain exit | rfl := h.exit
    · obtain ⟨s₁, statements, same⟩ := exit.placed
      obtain ⟨d, -, rfl⟩ := statements_of_ends_placeStatements statements
      exact looped.same ((congrArg LayoutState.enumerators same).trans
        (enumerators_beginBlock blocks Graph.exit)) h.behindBlocks.1.evolves
    · exact looped
  refine ⟨fun he => ?_, last_looped.distinct⟩
  rw [h.final]
  exact last_looped.slot he

/-- **The code of a block** follows its meaning. -/
theorem turns_block (hb : b ∈ last.placed) (inner : b ≠ Graph.exit) {loops : Loops} {s : σ}
    (stands : c.StandsAt (last.enumerators.lookup ·) f b vars loops) :
    ∃ n, c.body.Owns b f.pc n ∧ Turns c (last.enumerators.lookup ·) b n f s
      ((c.course env draft).turn ⟨b, vars, loops, s⟩) := by
  obtain ⟨e, edge, start, front, behind, w⟩ := h.exists_writes hb inner
  obtain ⟨begun, written, extended⟩ := w.lays.stages w.toStart.ready w.toStart.slots
  obtain ⟨enter, ends⟩ := w.lays.edge
  have fault : c.final.fault = none := (Assembler.finish_cases c.finished).1
  have behind_evolves : behind.asm.Evolves c.final := h.final ▸ w.toLast.evolves
  have front_evolves : front.asm.Evolves c.final := extended.evolves.trans behind_evolves
  have sound : (start.beginBlock b).asm.Sound := begun.evolves.sound w.laid.sound
    ((written.evolves.trans front_evolves).fault fault)
  have laid : front.Laid env.graph :=
    w.lays.laid_front w.toStart.ready w.toStart.slots w.laid (front_evolves.fault fault)
  obtain ⟨n, owns, ends_at, stays⟩ := w.stops
  have hpc : f.pc = (start.beginBlock b).asm.code.size := h.offset_unique stands.listed owns.mem
  have site : (c.course env draft).site b = (start.beginBlock b).draft.nextSite := by
    obtain ⟨ready, slots, -⟩ := begins_start h.written
    rw [h.site_of_suffix w.suffix, nextSite_beginBlock, w.before.nextSite c ready slots rfl]
    rfl
  -- Nothing of the statements is taken back, so their code is in front of the next block.
  have ahead : front.asm.code.size ≤ n := by
    obtain ⟨d, written_, rfl⟩ := statements_of_ends_placeStatements w.lays.statements
    have compact := (compact_of_ends_emitStatements written_).1
    have front_fault := front_evolves.fault fault
    have pinned : (start.beginBlock b).asm.Lasts (start.beginBlock b).asm.code.size := by
      obtain ⟨l, begun_⟩ := begun_beginBlock w.toStart.ready w.laid.sound
        (written.evolves.fault front_fault)
      exact begun_.pinned ▸ sound.lasts
    exact stays _ ((compact.lasts sound front_fault pinned).evolves extended.evolves
      (behind_evolves.fault fault))
  -- The statements first, then the edge: what comes of the one is where the other starts.
  have comes := comes_of_ends_placeStatements (w := s) w.lays.statements begun.slots front_evolves
    sound hpc stands.stands.stack stands.stands.agrees
  rw [Course.turn, site]
  refine ⟨n, hpc ▸ owns, ?_⟩
  show Turns _ _ _ _ _ _ (((env.graph.turn c.world env.body loops b).runFrom _).1.outcome vars s)
  rw [runFrom_turn_of_ending w.lays.ends.ending]
  refine comes.turns h.regions ahead fun {x vars' s' g} executed hpc' hstack' hvars' beside => ?_
  -- If the statements have been executed, none of them throws, and the edge is reached.
  have goesOn : ∀ statement ∈ env.graph.statements b, statement.action.goesOn = true := by
    intro statement mem
    by_contra throws
    exact not_ok_of_throws ⟨statement, mem, by simpa using throws⟩ _ _ _ _ _ executed
  have arrives : front.asm.reachable = true := by
    obtain ⟨block, -, found, -⟩ := ends_placeStatements w.lays.statements
    rw [Graph.statements, found] at goesOn
    exact reachable_of_ends_placeStatements w.lays.statements found goesOn
      (front_evolves.fault fault)
  have seated : front.Seated := by
    intro t ht
    rw [← List.mem_reverse, ← laid.blocks] at ht
    obtain ⟨⟨_, n⟩, mem, rfl⟩ := List.mem_map.mp ht
    obtain ⟨l, name, place⟩ := laid.places _ _ mem
    exact ⟨l, n, name, place⟩
  have departs := departs_of_ends_placeEdge (w := s') (f := g) h.seats rfl w.lays.plain
    ⟨written.ready, laid.sound, written.slots, arrives⟩ seated ends w.toLast.enumerators
    behind_evolves ends_at ⟨hpc', hstack', hvars', stands.stands.tracks.beside h.seats beside⟩
  rw [nextSite_of_ends_placeStatements c w.lays.statements] at departs
  refine departs.turns h.regions fun {t loops' vars'' s'' g' n} way heads stands' => ?_
  have target : t ∈ last.placed :=
    h.complete.targets b hb t (successors_of_endsBlock w.lays.ends ▸
      always_edge edge.kind e loops _ _ _ _ _ way)
  refine ⟨fun later => h.place_lt w.suffix ?_,
    ⟨stands'.pc ▸ h.listed_of_headsFor heads w.toLast.labels target, ?_, fun none => ?_⟩⟩
  · rwa [← w.lays.placed_front w.toStart.ready w.toStart.slots]
  · exact stands'.pc ▸ stands'
  · have kept := result_of_ends_placeStatements w.lays.statements begun.slots front_evolves none
      executed
    have edge_kept := ((alike_edge edge.kind e loops _).keeps trivial way).2.2.1
    exact edge_kept.trans (kept.trans (stands.result none))

/-- The exit is behind all other blocks, if something goes there. -/
theorem exitPlaced (hb : Graph.exit ∈ last.placed) : ExitPlaced env blocks last := by
  refine h.exit.resolve_right ?_
  rintro rfl
  obtain ⟨ready, slots, -⟩ := begins_start h.written
  obtain ⟨e, edge, _, _, _, -, lays, -⟩ :=
    h.strand.exists_laysBlock ready slots hb (by simp [LayoutState.start])
  have outgoing := lays.ends.1
  rw [h.built.exit_open] at outgoing
  cases outgoing

/-- **The code of the exit** follows its meaning. -/
theorem turns_exit (hb : Graph.exit ∈ last.placed) {loops : Loops} {s : σ}
    (stands : c.StandsAt (last.enumerators.lookup ·) f Graph.exit vars loops) :
    ∃ n, c.body.Owns Graph.exit f.pc n ∧ Turns c (last.enumerators.lookup ·) Graph.exit n f s
      ((c.course env draft).turn ⟨Graph.exit, vars, loops, s⟩) := by
  have placed := h.exitPlaced hb
  obtain ⟨ready, slots, -⟩ := begins_start h.written
  have toBlocks := h.toBlocks
  obtain ⟨front, statements, same⟩ := placed.placed
  have begun := continues_beginBlock toBlocks.ready toBlocks.slots Graph.exit
  have written : Extends .root [] _ _ :=
    extends_of_ends_placeStatements begun.ready begun.slots statements
  have final : c.final = (front.asm.emit front.asm.resultLoad).emit .return := by
    rw [h.final, same]
    rfl
  have emitted : front.asm.Evolves c.final := by
    have plain : front.asm.resultLoad.target? = none := by
      unfold Assembler.resultLoad
      split <;> rfl
    exact final ▸ (Evolves.single (.emit plain)).tail (.emit rfl)
  -- The code is finished, so it has no fault, nor has any code before it.
  have fault : c.final.fault = none := (Assembler.finish_cases c.finished).1
  have draft_sound : draft.asm.Sound := h.written.sound Assembler.sound_empty
    ((((toBlocks.trans begun).evolves.trans written.evolves).trans emitted).fault fault)
  have begun_sound : (blocks.beginBlock Graph.exit).asm.Sound :=
    (toBlocks.trans begun).evolves.sound draft_sound ((written.evolves.trans emitted).fault fault)
  have sound : front.asm.Sound := written.evolves.sound begun_sound (emitted.fault fault)
  have suffix : Graph.exit :: blocks.placed <:+ last.placed := by
    rw [(placed.continues toBlocks.ready toBlocks.slots).2.2.1]
  have owns : c.body.Owns Graph.exit (blocks.beginBlock Graph.exit).asm.code.size
      c.body.code.size := ⟨_, [], h.offsets.trans placed.blockOffsets, rfl⟩
  have hpc := h.offset_unique stands.listed owns.mem
  -- No call site is numbered between the blocks and the exit but by the statements of blocks.
  have site : (c.course env draft).site Graph.exit =
      (blocks.beginBlock Graph.exit).draft.nextSite := by
    rw [h.site_of_suffix suffix, nextSite_beginBlock, h.strand.nextSite c ready slots rfl]
    rfl
  have «open» : env.graph.ending? Graph.exit = none := by
    simp [Graph.ending?, h.built.exit_open]
  have comes := comes_of_ends_placeStatements (w := s) statements begun.slots emitted begun_sound
    hpc stands.stands.stack stands.stands.agrees
  rw [Course.turn, site]
  refine ⟨c.body.code.size, hpc ▸ owns, ?_⟩
  show Turns _ _ _ _ _ _
    (((env.graph.turn c.world env.body loops Graph.exit).runFrom _).1.outcome vars s)
  -- The exit has no edge, so its turn is over behind its statements.
  rw [runFrom_turn_of_open «open»]
  have ahead : front.asm.code.size ≤ c.body.code.size := by
    rw [c.code, Assembler.finish_size c.sound c.finished, final]
    simp [Nat.le_add_right_of_le]
  refine comes.turns h.regions ahead fun {x vars' s' g} executed hpc hstack hvars beside => ?_
  refine .returns (emerges_returned sound final hpc hstack hvars fun none => ?_)
  exact (result_of_ends_placeStatements statements begun.slots emitted none executed).trans
    (stands.result none)

/-- **The code of each block** follows its meaning. -/
theorem turns (stands : c.StandsAt (last.enumerators.lookup ·) f p.block p.vars p.loops) :
    ∃ n, c.body.Owns p.block f.pc n ∧ Turns c (last.enumerators.lookup ·) p.block n f p.state
      ((c.course env draft).turn p) := by
  obtain ⟨b, vars, loops, s⟩ := p
  have placed : b ∈ last.placed := by
    rw [← List.mem_reverse, ← h.order]
    exact List.mem_map_of_mem stands.listed
  by_cases inner : b = Graph.exit
  · subst inner
    exact h.turns_exit placed stands
  · exact h.turns_block placed inner stands

/-- Control enters at the first block, behind what comes in front of the graph. -/
theorem listed_start : (Graph.start, draft.asm.code.size) ∈ c.body.blockOffsets := by
  obtain ⟨e, edge, front, s₁, first, rest⟩ := h.entered
  obtain ⟨ready, slots, -⟩ := begins_start h.written
  let entry : LayoutState := { LayoutState.start draft with queue := [] }
  have ready : entry.Ready := ready
  obtain ⟨begun, written, extended⟩ := first.stages ready slots
  have block := first.continues ready slots
  have evolves := (rest.continues block.ready block.slots).evolves.trans h.behindBlocks.1.evolves
  have fault : (entry.beginBlock Graph.start).asm.fault = none := by
    refine (written.evolves.trans (extended.evolves.trans evolves)).fault ?_
    rw [← h.final]
    exact (Assembler.finish_cases c.finished).1
  have sound : draft.asm.Sound := h.written.sound Assembler.sound_empty (begun.evolves.fault fault)
  -- There is no jump in front of the block that could be taken back.
  have size : (entry.beginBlock Graph.start).asm.code.size = draft.asm.code.size := by
    obtain ⟨l, at_⟩ := begun_beginBlock ready sound fault
    refine at_.elided.resolve_right ?_
    rintro ⟨-, -, -, jump⟩
    have plain := h.straight _ (Array.mem_of_getElem? jump)
    cases plain
  rw [h.offsets]
  refine (h.prefixBlocks).subset ((rest.blockOffsets block.ready block.slots).subset ?_)
  rw [first.blockOffsets ready slots, size]
  exact List.mem_append_right _ (List.mem_singleton_self _)

/-- **Control enters** in front of the first block. -/
theorem standsAt_start (hpc : f.pc = draft.asm.code.size) (hstack : f.stack = [])
    (hvars : f.Agrees c.final.slots vars)
    (unset : ∀ (id : Nat), id < f.locals.size → f.locals[id]? = some .unset)
    (none : vars.result = .unset) :
    c.StandsAt (last.enumerators.lookup ·) f Graph.start vars .idle := by
  have idle {e : EdgeId} {id : LocalId} (he : last.enumerators.lookup e = some id) :
      f.locals[id]? = some .unset := by
    obtain ⟨slot, hslot, -⟩ := h.seats.slot he
    exact unset id (hvars.lt hslot)
  refine ⟨hpc ▸ h.listed_start, ⟨rfl, hstack, hvars, fun he _ => idle he, nofun, ?_⟩, fun _ => none⟩
  intro e e' id id' k he he' there
  rw [idle he] at there
  cases there

/-! ## Walks -/

/-- In front of a block, its code is executed, if it has any, and then what comes behind it. -/
theorem passes_of_goesOn {g : Frame} {s s' : σ} {visited : List (BlockId × σ)} {z : Step × σ}
    (owns : c.body.Owns b f.pc n) (sweeps : c.Sweeps n (.running f, s) (.running g, s'))
    (progress : c.body.place b < c.body.place t ∨ c.Emerges n (.running f, s) (.running g, s'))
    (listed : (t, g.pc) ∈ c.body.blockOffsets) (first : ∀ x ∈ visited.head?, x.1 = t)
    (rest : c.body.Passes c.world visited (.running g, s') z) :
    c.body.Passes c.world ((b, s) :: visited) (.running f, s) z := by
  obtain behind | emerges := progress
  · cases sweeps with
    | emerges emerges => exact .executes owns emerges rest
    | stays le =>
      obtain rfl := Nat.le_antisymm (h.le_of_place_lt owns behind listed) le
      exact .skips owns (fun x hx => first x hx ▸ behind) rest
  · exact .executes owns emerges rest

/-- **The code goes where the walk goes**, in the same states of the world. -/
theorem exists_passes {p' : Position σ} {visited : List (BlockId × σ)}
    (walks : (c.course env draft).Walks p visited p')
    (stands : c.StandsAt (last.enumerators.lookup ·) f p.block p.vars p.loops) :
    ∃ g, c.body.Passes c.world visited (.running f, p.state) (.running g, p'.state) ∧
      c.StandsAt (last.enumerators.lookup ·) g p'.block p'.vars p'.loops := by
  induction walks generalizing f with
  | stays => exact ⟨f, .arrives _, stands⟩
  | goesOn turns rest ih =>
    obtain ⟨n, owns, block⟩ := h.turns stands
    rw [turns] at block
    cases block with
    | goesOn sweeps progress stands' =>
      obtain ⟨g, passes, last⟩ := ih stands'
      exact ⟨g, h.passes_of_goesOn owns sweeps progress stands'.listed rest.block passes, last⟩

/-- **The code ends as the walk ends.** -/
theorem passes_of_finishes {visited : List (BlockId × σ)} {result : Except DispatchError Value}
    {s : σ} (finishes : (c.course env draft).Finishes p visited result s)
    (stands : c.StandsAt (last.enumerators.lookup ·) f p.block p.vars p.loops) :
    c.body.Passes c.world visited (.running f, p.state) (.ended result, s) := by
  induction finishes generalizing f with
  | returns turns =>
    obtain ⟨n, owns, block⟩ := h.turns stands
    rw [turns] at block
    cases block with
    | returns emerges => exact .executes owns emerges (.arrives _)
  | fails turns =>
    obtain ⟨n, owns, block⟩ := h.turns stands
    rw [turns] at block
    cases block with
    | fails emerges => exact .executes owns emerges (.arrives _)
  | goesOn turns rest ih =>
    obtain ⟨n, owns, block⟩ := h.turns stands
    rw [turns] at block
    cases block with
    | goesOn sweeps progress stands' =>
      exact h.passes_of_goesOn owns sweeps progress stands'.listed rest.block (ih stands')

end Layout

end Setting.LaysOut

end StackScript
