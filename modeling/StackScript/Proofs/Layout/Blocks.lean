import StackScript.Proofs.Layout.Record

/-!
# The blocks of a layout, one by one

A block that is placed starts at its offset, with its statements and then its edge. So the code of a
switch, of a jump or of the step of a loop stands in every finished layout that places its block.

Where no edge of a graph opens a scope, all blocks are laid out in the outermost one: one behind the
other, each in one piece. So a whole layout is a strand of blocks, and the exit behind them.

## Main definitions

* `WritesBlock`: a block that is written on the way from a layout to another
* `Graph.Unguarded`: no edge opens a scope
* `LaysBlock`: a block of the outermost scope, from its label to the end of its edge
* `Strand`: blocks one behind the other
* `LayoutState.BeginsAt`: where the next block begins

## Main results

* `writesBlock_of_lays`: each part of a layout writes the blocks that it places
* `writesBlock_of_layOut`: so does a whole layout
* `exists_strand_of_ends_placeAll`: without scopes a whole layout is a strand of blocks, and the exit
* `Strand.exists_laysBlock`: each block of a strand, with what comes in front of it and behind it
* `Strand.laid`: a strand places blocks in order
-/

namespace StackScript

open Emit Arrange

/-- A block with its statements and its edge, written on the way from a layout to another. -/
structure WritesBlock (env : LayoutEnv) (b : BlockId) (e : EdgeId) (edge : Edge)
    (s s' : LayoutState) : Prop where
  written : ∃ (path : Path) (enter : Enter) (start front behind : LayoutState), Continues s start ∧
    Ends (placeStatements env b) (start.beginBlock b) () front ∧
    Ends (placeEdge env enter (scopeOf path) e edge) front () behind ∧ Continues behind s'

section Parts

variable {env : LayoutEnv} {job : Job} {p p' : Progress} {s s₁ s' : LayoutState} {b : BlockId}
  {e : EdgeId} {edge : Edge}

theorem WritesBlock.behind (h : WritesBlock env b e edge s₁ s') (h' : Continues s s₁) :
    WritesBlock env b e edge s s' := by
  obtain ⟨path, enter, start, front, behind, toStart, statements, ends, rest⟩ := h.written
  exact ⟨path, enter, start, front, behind, h'.trans toStart, statements, ends, rest⟩

theorem WritesBlock.before (h : WritesBlock env b e edge s s₁) (h' : Continues s₁ s') :
    WritesBlock env b e edge s s' := by
  obtain ⟨path, enter, start, front, behind, toStart, statements, ends, rest⟩ := h.written
  exact ⟨path, enter, start, front, behind, toStart, statements, ends, rest.trans h'⟩

/-- The head of a block is its label and its statements. The block is placed then. -/
theorem continues_head (hs : s.Ready) (hslots : s.asm.slots.Sound)
    (hstatements : Ends (placeStatements env b) (s.beginBlock b) () s₁) :
    Continues s s₁ ∧ s₁.placed = b :: s.placed := by
  have written : Extends .root [] _ _ := extends_of_ends_head hs hslots hstatements
  exact ⟨continues_of_ends_head hs hslots hstatements,
    written.placed.trans (placed_beginBlock s b)⟩

/-- **Each part of a layout** writes the blocks that it places, with their edges. An edge that opens
scopes is more than one part. -/
theorem writesBlock_of_lays (h : Lays env job p p') (hs : p.state.Ready)
    (hslots : p.state.asm.slots.Sound) (starts : job.Starts p.state) (hb : b ∈ p'.state.placed)
    (new : b ∉ p.state.placed) (ends : env.graph.EndsBlock b e edge)
    (plain : edge.kind.isTry = false) : WritesBlock env b e edge p.state p'.state := by
  -- A block ends in one edge.
  have only {e' edge'} (ends' : env.graph.EndsBlock b e' edge') : e' = e ∧ edge' = edge := by
    obtain rfl := Option.some.inj (ends'.1.symm.trans ends.1)
    exact ⟨rfl, Option.some.inj (ends'.2.symm.trans ends.2)⟩
  induction h with
  | done | noCatch | noFinally => exact absurd hb new
  | @skip path p b' rest p' hq hmem _ ih =>
    have starts' : (Job.drain path).Starts (p.map fun s => { s with queue := rest }).state :=
      starts_of_unreachable (starts.unreachable hq hmem)
    exact (ih hs hslots starts' hb new).behind (.same hs hslots rfl rfl rfl)
  | @place path p b' rest p₁ p' hq hmem h₁ h₂ ih₁ ih₂ =>
    have taken : Continues p.state (p.map fun s => { s with queue := rest }).state :=
      .same hs hslots rfl rfl rfl
    obtain ⟨first, unreachable⟩ := continues_of_lays h₁ hs hslots trivial
    have starts' : (Job.drain path).Starts p₁.state := starts_of_unreachable unreachable
    by_cases here : b ∈ p₁.state.placed
    · exact ((ih₁ hs hslots trivial here new).behind taken).before
        (continues_of_lays h₂ first.ready first.slots starts').1
    · exact (ih₂ first.ready first.slots starts' hb here).behind (taken.trans first)
  | @plain path p b' e' edge' s₁ s' enter _ hstatements hends hk hedge =>
    obtain ⟨head, placed⟩ := continues_head hs hslots hstatements
    have ended := (extends_of_ends_placeEdge head.ready head.slots hk hedge).1
    rw [ended.placed, placed] at hb
    obtain rfl := (List.mem_cons.mp hb).resolve_right new
    obtain ⟨rfl, rfl⟩ := only hends
    exact ⟨path, enter, p.state, s₁, s', .refl hs hslots, hstatements, hedge,
      .refl ended.ready (ended.continues head.slots).slots⟩
  | @guard path p b' e' edge' body catches finally? next s₁ p₂ p₃ p₄ s₅ r fromBody fromCatches _
      hstatements hends hkind h₂ h₃ h₄ hescapes hr ih₂ ih₃ ih₄ =>
    have goes := guardGoes hs hslots hstatements (continues_of_lays h₂) (continues_of_lays h₃)
      (continues_of_lays h₄) hescapes hr
    obtain ⟨head, placed⟩ := continues_head hs hslots hstatements
    have escaped := (extends_of_ends_enqueueEscapes goes.final.ready hescapes).1
    have accepted : Extends _ [next] _ _ :=
      (extends_accept goes.escapes.ready hr (List.mem_singleton_self next)).1
    rw [accepted.placed, escaped.placed] at hb
    have last := goes.escapes.trans goes.next
    have toHandlers := (goes.head.trans goes.pin).trans (goes.body.trans goes.pinBehind)
    by_cases in₃ : b ∈ p₃.state.placed
    · by_cases in₂ : b ∈ p₂.state.placed
      · have inside : b ∉ s₁.placed := fun mem => by
          rw [placed] at mem
          obtain rfl := (List.mem_cons.mp mem).resolve_right new
          obtain ⟨-, rfl⟩ := only hends
          rw [hkind] at plain
          cases plain
        exact ((ih₂ goes.pin.ready goes.pin.slots trivial in₂ inside).behind
          (goes.head.trans goes.pin)).before
            (((goes.pinBehind.trans goes.catches).trans goes.final).trans last)
      · exact ((ih₃ goes.pinBehind.ready goes.pinBehind.slots goes.unreachable₂ in₃ in₂).behind
          toHandlers).before (goes.final.trans last)
    · exact ((ih₄ goes.catches.ready goes.catches.slots goes.unreachable₃ hb in₃).behind
        (toHandlers.trans goes.catches)).before last
  | @enter path p seed p₁ hseed h₁ ih =>
    have starts' : (Job.drain path).Starts (p.map (·.openScope seed)).state :=
      starts_openScope hseed
    have inner := (continues_of_lays h₁ hs hslots starts').1
    exact ((ih hs hslots starts' hb new).behind (.same hs hslots rfl rfl rfl)).before
      (.same inner.ready inner.slots rfl rfl rfl)
  | @«catch» source path tryStart tryEnd past clause rest p s₁ p₂ p' escapes others hbind h₁ h₂
      ih₁ ih₂ =>
    have goes := catchGoes hs hslots starts hbind (continues_of_lays h₁)
    have behind := goes.behind (⟨.catch clause.type, tryStart, tryEnd, p.state.asm.offset, ·⟩)
    have rest := (continues_of_lays h₂ behind.ready behind.slots goes.unreachable).1
    have bound : s₁.placed = p.state.placed := by
      obtain ⟨d, -, rfl⟩ := ends_write.mp hbind
      rfl
    have front := goes.head.trans goes.bound
    by_cases here : b ∈ p₂.state.placed
    · exact ((ih₁ goes.bound.ready goes.bound.slots trivial here (bound ▸ new)).behind front).before
        (behind.trans rest)
    · exact (ih₂ behind.ready behind.slots goes.unreachable hb here).behind
        ((front.trans goes.handler).trans behind)
  | @«finally» source path tryStart handler next p p₁ escapes h₁ ih =>
    have goes := finallyGoes hs hslots starts (continues_of_lays h₁)
    exact ((ih goes.head.ready goes.head.slots trivial hb new).behind goes.head).before
      (goes.behind _)

end Parts

/-! ## Whole layouts -/

section Graphs

variable {body : BodyEnv} {graph : Graph} {draft : Draft} {layout : Layout} {b : BlockId}
  {e : EdgeId} {edge : Edge}

/-- The block where control enters is listed. -/
theorem start_mem_of_layOut {steps : List BuildStep} (hg : Graph.build steps = .ok graph)
    (hdraft : Assembler.Evolves .empty draft.asm) (h : (layOut body graph draft).1 = .ok layout) :
    Graph.start ∈ layout.blockOffsets.map (·.1) := by
  obtain ⟨s, hends, hfinish, hoffsets, -⟩ := ends_of_layOut h
  have complete := complete_of_ends_placeAll (Graph.built_of_build hg) hdraft hends
    (Assembler.finish_cases hfinish).1
  rw [hoffsets, complete.laid.blocks, List.mem_reverse]
  exact complete.start

/-- **A finished layout** has all its blocks in it, with the edges that open no scopes. A label that
a block has is put at the offset where the layout lists the block. -/
theorem writesBlock_of_layOut {steps : List BuildStep} (hg : Graph.build steps = .ok graph)
    (hdraft : Assembler.Evolves .empty draft.asm) (h : (layOut body graph draft).1 = .ok layout)
    (placed : b ∈ layout.blockOffsets.map (·.1)) (ends : graph.EndsBlock b e edge)
    (plain : edge.kind.isTry = false) :
    ∃ s, (layOut body graph draft).2 = s.draft ∧
      s.asm.finish body.settings.maxLocals = .ok layout.assembled ∧
      WritesBlock ⟨body, graph, protectedRanges graph⟩ b e edge (.start draft) s ∧
      ∀ t o l, (t, o) ∈ layout.blockOffsets → s.labels.lookup t = some l → s.asm.PlacedAt l o := by
  obtain ⟨s, hends, hfinish, hoffsets, -⟩ := ends_of_layOut h
  have built := Graph.built_of_build hg
  have fault := (Assembler.finish_cases hfinish).1
  have laid := (complete_of_ends_placeAll built hdraft hends fault).laid
  obtain ⟨ready, slots, starts⟩ := begins_start hdraft
  obtain ⟨p, hlays, hexit⟩ := lays_of_ends_placeAll hends
  have root := (continues_of_lays hlays ready slots starts).1
  have mem : b ∈ s.placed := by
    rwa [hoffsets, laid.blocks, List.mem_reverse] at placed
  -- The exit has no edge, so the block is one of those in front of it.
  have other : b ≠ Graph.exit := by
    rintro rfl
    have exits := ends.1
    rw [built.exit_open] at exits
    cases exits
  have last : Continues p.state s ∧ b ∈ p.state.placed := by
    split at hexit
    · obtain ⟨goes, -, placed, -⟩ := hexit.continues root.ready root.slots
      rw [placed] at mem
      exact ⟨goes, (List.mem_cons.mp mem).resolve_left other⟩
    · subst hexit
      exact ⟨.refl root.ready root.slots, mem⟩
  refine ⟨s, draft_of_layOut hends, hfinish, ?_, fun t o l listed named => ?_⟩
  · have new : b ∉ (LayoutState.start draft).placed := by simp [LayoutState.start]
    exact (writesBlock_of_lays hlays ready slots starts last.2 new ends plain).before last.1
  · obtain ⟨k, known, at_⟩ := laid.places t o (hoffsets ▸ listed)
    obtain rfl : k = l := Option.some.inj (known.symm.trans named)
    exact at_

end Graphs

open Emit Arrange

/-! ## Graphs without scopes -/

/-- No edge of the graph opens a scope. -/
def Graph.Unguarded (graph : Graph) : Prop :=
  ∀ edge ∈ graph.edges.toList, edge.kind.isTry = false

instance (graph : Graph) : Decidable graph.Unguarded :=
  inferInstanceAs (Decidable (∀ edge ∈ graph.edges.toList, edge.kind.isTry = false))

/-- The edge that ends a block opens no scope. -/
theorem Graph.Unguarded.plain {graph : Graph} (h : graph.Unguarded) {b : BlockId} {e : EdgeId}
    {edge : Edge} (ends : graph.EndsBlock b e edge) : edge.kind.isTry = false :=
  h edge (Array.mem_toList_iff.mpr (Array.mem_of_getElem? ends.2))

/-! ## Blocks one behind the other -/

/-- A block of the outermost scope is laid out: its label and its statements, and then its edge. -/
structure LaysBlock (env : LayoutEnv) (b : BlockId) (e : EdgeId) (edge : Edge)
    (s front s' : LayoutState) : Prop where
  new : b ∉ s.placed
  ends : env.graph.EndsBlock b e edge
  plain : edge.kind.isTry = false
  statements : Ends (placeStatements env b) (s.beginBlock b) () front
  edge : ∃ enter, Ends (placeEdge env enter Scope.root e edge) front () s'

/-- Blocks of the outermost scope, laid out one behind the other. -/
inductive Strand (env : LayoutEnv) (s : LayoutState) : LayoutState → Prop
  | refl : Strand env s s
  | requeue {s₁ : LayoutState} {queue} : Strand env s s₁ → Strand env s { s₁ with queue }
  | block {s₁ front s' b e edge} : Strand env s s₁ → LaysBlock env b e edge s₁ front s' →
      Strand env s s'

/-- The next block to be laid out begins at an offset, on the way from a layout to another. -/
def LayoutState.BeginsAt (s : LayoutState) (n : Nat) (s' : LayoutState) : Prop :=
  ∃ b queue, let begun := LayoutState.beginBlock { s with queue } b
    n = begun.asm.code.size ∧ Continues begun s' ∧
      s.blockOffsets.toList ++ [(b, n)] <+: s'.blockOffsets.toList

section Blocks

variable {env : LayoutEnv} {b : BlockId} {e : EdgeId} {edge : Edge} {s s₁ front s' : LayoutState}

theorem LayoutState.BeginsAt.trans {n : Nat} (h : s.BeginsAt n s₁) (goes : Continues s₁ s')
    (more : s₁.blockOffsets.toList <+: s'.blockOffsets.toList) : s.BeginsAt n s' := by
  obtain ⟨b, queue, start, begun, listed⟩ := h
  exact ⟨b, queue, start, begun.trans goes, listed.trans more⟩

namespace LaysBlock

variable (h : LaysBlock env b e edge s front s') (ready : s.Ready) (slots : s.asm.slots.Sound)
include h ready slots

/-- The stages of the layout of a block. -/
theorem stages : Continues s (s.beginBlock b) ∧ Continues (s.beginBlock b) front ∧
    Extends Scope.root edge.kind.targets front s' := by
  have begun := continues_beginBlock ready slots b
  have written := continues_of_ends_placeStatements begun.ready begun.slots h.statements
  obtain ⟨enter, ends⟩ := h.edge
  exact ⟨begun, written, (extends_of_ends_placeEdge written.ready written.slots h.plain ends).1⟩

theorem continues : Continues s s' := by
  obtain ⟨begun, written, ended⟩ := h.stages ready slots
  exact (begun.trans written).trans (ended.continues written.slots)

theorem placed_front : front.placed = b :: s.placed :=
  (continues_head ready slots h.statements).2

theorem placed : s'.placed = b :: s.placed := by
  rw [(h.stages ready slots).2.2.placed, h.placed_front ready slots]

theorem regions : s'.regions = s.regions := by
  obtain ⟨block, d, -, -, -, rfl⟩ := ends_placeStatements h.statements
  exact (h.stages ready slots).2.2.regions.trans (Chart.regions_beginBlock s b)

/-- The block is listed at the offset where it starts. -/
theorem blockOffsets :
    s'.blockOffsets.toList = s.blockOffsets.toList ++ [(b, (s.beginBlock b).asm.code.size)] := by
  have begun := blockOffsets_beginBlock s b
  obtain ⟨block, d, -, -, -, rfl⟩ := ends_placeStatements h.statements
  rw [(h.stages ready slots).2.2.blockOffsets]
  exact begun

theorem laid_front (laid : s.Laid env.graph) (hf : front.asm.fault = none) :
    front.Laid env.graph :=
  laid.head ready slots h.statements hf h.new (.inr (isSome_outgoing? h.ends))

theorem laid (laid : s.Laid env.graph) (hf : s'.asm.fault = none) : s'.Laid env.graph := by
  obtain ⟨-, written, ended⟩ := h.stages ready slots
  exact (h.laid_front ready slots laid (ended.evolves.fault hf)).continues
    (ended.continues written.slots) hf ended.placed ended.blockOffsets

end LaysBlock

namespace Strand

theorem trans (h : Strand env s s₁) (h' : Strand env s₁ s') : Strand env s s' := by
  induction h' with
  | refl => exact h
  | requeue _ ih => exact .requeue ih
  | block _ lays ih => exact .block ih lays

section Keeping

variable (h : Strand env s s') (ready : s.Ready) (slots : s.asm.slots.Sound)
include h ready slots

theorem continues : Continues s s' := by
  induction h with
  | refl => exact .refl ready slots
  | requeue _ ih => exact ih.trans (.same ih.ready ih.slots rfl rfl rfl)
  | block _ lays ih => exact ih.trans (lays.continues ih.ready ih.slots)

theorem placed : s.placed <:+ s'.placed := by
  induction h with
  | refl => exact List.suffix_rfl
  | requeue _ ih => exact ih
  | block strand lays ih =>
    have before := strand.continues ready slots
    rw [lays.placed before.ready before.slots]
    exact ih.trans (List.suffix_cons _ _)

theorem regions : s'.regions = s.regions := by
  induction h with
  | refl => rfl
  | requeue _ ih => exact ih
  | block strand lays ih =>
    have before := strand.continues ready slots
    exact (lays.regions before.ready before.slots).trans ih

theorem blockOffsets : s.blockOffsets.toList <+: s'.blockOffsets.toList := by
  induction h with
  | refl => exact List.prefix_rfl
  | requeue _ ih => exact ih
  | block strand lays ih =>
    have before := strand.continues ready slots
    rw [lays.blockOffsets before.ready before.slots]
    exact ih.trans (List.prefix_append _ _)

/-- **A strand places blocks** once each, in order. -/
theorem laid (laid : s.Laid env.graph) (hf : s'.asm.fault = none) : s'.Laid env.graph := by
  induction h with
  | refl => exact laid
  | requeue _ ih =>
    obtain ⟨sound, blocks, nodup, ordered, places, exist, ended⟩ := ih hf
    exact ⟨sound, blocks, nodup, ordered, places, exist, ended⟩
  | block strand lays ih =>
    have before := strand.continues ready slots
    have fault := (lays.continues before.ready before.slots).evolves.fault hf
    exact lays.laid before.ready before.slots (ih fault) hf

/-- A strand begins with a block, if there are any in it. -/
theorem begins : (∃ queue, s' = { s with queue }) ∨ ∃ n, s.BeginsAt n s' := by
  induction h with
  | refl => exact .inl ⟨s.queue, rfl⟩
  | @requeue s₁ queue strand ih =>
    obtain ⟨_, rfl⟩ | ⟨n, begins⟩ := ih
    · exact .inl ⟨queue, rfl⟩
    · have before := strand.continues ready slots
      exact .inr ⟨n, begins.trans (.same before.ready before.slots rfl rfl rfl) List.prefix_rfl⟩
  | @block s₁ front s₂ b e edge strand lays ih =>
    have before := strand.continues ready slots
    have listed := lays.blockOffsets before.ready before.slots
    right
    obtain ⟨queue, rfl⟩ | ⟨n, begins⟩ := ih
    · obtain ⟨-, written, ended⟩ := lays.stages before.ready before.slots
      exact ⟨_, b, queue, rfl, written.trans (ended.continues written.slots), listed ▸ List.prefix_rfl⟩
    · exact ⟨n, begins.trans (lays.continues before.ready before.slots)
        (listed ▸ List.prefix_append _ _)⟩

/-- **Each block of a strand**, with what comes in front of it and behind it. -/
theorem exists_laysBlock (hb : b ∈ s'.placed) (new : b ∉ s.placed) :
    ∃ e edge start front behind, Strand env s start ∧ LaysBlock env b e edge start front behind ∧
      Strand env behind s' := by
  induction h with
  | refl => exact absurd hb new
  | requeue _ ih =>
    obtain ⟨e, edge, start, front, behind, before, lays, rest⟩ := ih hb
    exact ⟨e, edge, start, front, behind, before, lays, .requeue rest⟩
  | @block s₁ front₁ s₂ b₁ e₁ edge₁ strand lays₁ ih =>
    have before := strand.continues ready slots
    by_cases here : b ∈ s₁.placed
    · obtain ⟨e, edge, start, front, behind, before, lays, rest⟩ := ih here
      exact ⟨e, edge, start, front, behind, before, lays, .block rest lays₁⟩
    · rw [lays₁.placed before.ready before.slots] at hb
      obtain rfl := (List.mem_cons.mp hb).resolve_right here
      exact ⟨e₁, edge₁, s₁, front₁, s₂, strand, lays₁, .refl⟩

end Keeping

end Strand

end Blocks

/-! ## Whole layouts -/

section Layouts

variable {env : LayoutEnv} {job : Job} {p p' : Progress} {s s' : LayoutState}

/-- Only blocks of the outermost scope are laid out where no edge opens one. -/
theorem strand_of_lays (plain : env.graph.Unguarded) (h : Lays env job p p')
    (outermost : job = .drain [] ∨ ∃ b, job = .block [] b ∧ b ∉ p.state.placed) :
    Strand env p.state p'.state := by
  have requeued (s : LayoutState) (queue : List BlockId) : Strand env s { s with queue } :=
    .requeue .refl
  induction h with
  | done => exact .refl
  | @skip path p b rest p' _ _ _ ih =>
    obtain ⟨⟨⟩⟩ | ⟨_, ⟨⟩, -⟩ := outermost
    exact (requeued p.state rest).trans (ih (.inl rfl))
  | @place path p b rest p₁ p' _ hb _ _ ih₁ ih₂ =>
    obtain ⟨⟨⟩⟩ | ⟨_, ⟨⟩, -⟩ := outermost
    exact ((requeued p.state rest).trans (ih₁ (.inr ⟨b, rfl, hb⟩))).trans (ih₂ (.inl rfl))
  | plain _ statements ends hk ended =>
    obtain ⟨⟨⟩⟩ | ⟨_, ⟨⟩, new⟩ := outermost
    exact .block .refl ⟨new, ends, hk, statements, _, ended⟩
  | guard _ _ ends kind =>
    have none := plain.plain ends
    rw [kind] at none
    cases none
  | enter | noCatch | «catch» | noFinally | «finally» =>
    obtain h | ⟨_, h, -⟩ := outermost <;> cases h

/-- The exit is listed at the offset where it starts. -/
theorem ExitPlaced.blockOffsets (h : ExitPlaced env s s') :
    s'.blockOffsets.toList =
      s.blockOffsets.toList ++ [(Graph.exit, (s.beginBlock Graph.exit).asm.code.size)] := by
  obtain ⟨s₁, statements, rfl⟩ := h.placed
  obtain ⟨block, d, -, -, -, rfl⟩ := ends_placeStatements statements
  exact blockOffsets_beginBlock s Graph.exit

theorem ExitPlaced.beginsAt (h : ExitPlaced env s s') (ready : s.Ready)
    (slots : s.asm.slots.Sound) : ∃ n, s.BeginsAt n s' := by
  obtain ⟨s₁, -, written, returned⟩ := h.joins ready slots
  exact ⟨_, Graph.exit, s.queue, rfl, written.trans returned.goes, h.blockOffsets ▸ List.prefix_rfl⟩

theorem ExitPlaced.regions (h : ExitPlaced env s s') : s'.regions = s.regions := by
  obtain ⟨s₁, statements, rfl⟩ := h.placed
  obtain ⟨block, d, -, -, -, rfl⟩ := ends_placeStatements statements
  exact Chart.regions_beginBlock s Graph.exit

/-- The block that waits is the first one of the strand. -/
theorem exists_first_of_lays {b : BlockId} {rest : List BlockId} (plain : env.graph.Unguarded)
    (h : Lays env (.drain []) p p') (waits : p.state.queue = b :: rest)
    (new : b ∉ p.state.placed) :
    ∃ e edge front s₁, LaysBlock env b e edge { p.state with queue := rest } front s₁ ∧
      Strand env s₁ p'.state := by
  cases h with
  | done empty =>
    rw [waits] at empty
    cases empty
  | skip same old =>
    rw [waits] at same
    cases same
    exact (new old).elim
  | place same _ block others =>
    rw [waits] at same
    cases same
    cases block with
    | plain _ statements ends hk ended =>
      exact ⟨_, _, _, _, ⟨new, ends, hk, statements, _, ended⟩,
        strand_of_lays plain others (.inl rfl)⟩
    | guard _ _ ends kind =>
      have none := plain.plain ends
      rw [kind] at none
      cases none

/-- **A whole layout** is a strand of blocks, the one where control enters in front, and the exit
behind them if something goes there. -/
theorem exists_strand_of_ends_placeAll {draft : Draft} (plain : env.graph.Unguarded)
    (h : Ends (placeAll env) (.start draft) () s') :
    ∃ e edge front s₁ s₂,
      LaysBlock env Graph.start e edge { LayoutState.start draft with queue := [] } front s₁ ∧
        Strand env s₁ s₂ ∧ (ExitPlaced env s₂ s' ∨ s' = s₂) := by
  obtain ⟨p, lays, last⟩ := lays_of_ends_placeAll h
  obtain ⟨e, edge, front, s₁, first, strand⟩ :=
    exists_first_of_lays plain lays rfl (by simp [LayoutState.start])
  refine ⟨e, edge, front, s₁, p.state, first, strand, ?_⟩
  split at last
  · exact .inl last
  · exact .inr last

end Layouts

end StackScript
