import StackScript.Proofs.Layout.Record

/-!
# The regions of a layout

If the `try`s of a graph are nested, the regions of its layout are exactly the handlers of the
`try`s that control may reach: an instruction of a block is protected by a handler, or belongs to
it, exactly if the number of the block says so.

## Main definitions

* `Handler`, `Graph.handlers`: the handlers of a `try`, with the blocks that they protect
* `Layout.Owns`: the instructions of a block
* `Layout.Renders`: a region is that of a handler

## Main results

* `Chart.Final.belongs_iff`: a block is in a part of a `try` exactly if its number is
* `regions_of_layOut`: the regions of a layout are the handlers of the graph
-/

namespace StackScript

open Emit Arrange

variable {body : Part}

/-! ## Handlers -/

/-- A handler of a `try`, with the blocks that it protects and its own. -/
structure Handler where
  kind : HandlerKind
  guarded : BlockRange
  range : BlockRange

/-- The `catch` handlers of a `try`; the last of them ends where `past` begins. -/
def catchHandlers (guarded : BlockRange) (past : BlockId) : List CatchClause → List Handler
  | [] => []
  | clause :: rest =>
    ⟨.catch clause.type, guarded, ⟨clause.target, catchEnd past rest⟩⟩ ::
      catchHandlers guarded past rest

/-- The `finally` handler of a `try`, if it has one. -/
def finallyHandlers (body next : BlockId) : Option BlockId → List Handler
  | none => []
  | some handler => [⟨.finally, ⟨body, handler⟩, ⟨handler, next⟩⟩]

/-- The handlers of a `try` in the order of the source: each `catch` handler protects the body, the
`finally` handler all that comes in front of it. -/
def EdgeKind.handlers : EdgeKind → List Handler
  | .tryCatch body catches finally? next =>
    catchHandlers ⟨body, catchEnd (finally?.getD next) catches⟩ (finally?.getD next) catches ++
      finallyHandlers body next finally?
  | _ => []

/-- The handlers of the `try` that ends a block. -/
def Graph.handlers (graph : Graph) (b : BlockId) : List Handler :=
  match graph.outgoing? b with
  | some edge => edge.kind.handlers
  | none => []

/-- A part of a `try` is a handler. -/
structure Part.Is (body part : Part) (handler : Handler) : Prop where
  kind : part.handler = some handler.kind
  range : part.range = handler.range
  guarded : handler.guarded =
    ⟨body.range.first, handler.kind.tryEnd body.range.past part.range.first⟩

theorem is_catchHandlers {past : BlockId} (catches : List CatchClause) :
    List.Forall₂ body.Is (catchParts past catches) (catchHandlers body.range past catches) := by
  induction catches with
  | nil => exact .nil
  | cons clause rest ih => exact .cons ⟨rfl, rfl, rfl⟩ ih

theorem is_finallyHandlers {next : BlockId} (handler : Option BlockId) :
    List.Forall₂ body.Is (finallyParts next handler)
      (finallyHandlers body.range.first next handler) := by
  cases handler with
  | none => exact .nil
  | some handler => exact .cons ⟨rfl, rfl, rfl⟩ .nil

/-- The parts of a `try` behind the body are its handlers. -/
theorem EdgeKind.is_handlers (kind : EdgeKind) :
    kind.parts = [] ∧ kind.handlers = [] ∨
      ∃ body rest, kind.parts = body :: rest ∧ body.handler = none ∧
        List.Forall₂ body.Is rest kind.handlers := by
  cases kind with
  | tryCatch body catches finally? next =>
    exact .inr ⟨_, _, rfl, rfl,
      List.rel_append (is_catchHandlers catches) (is_finallyHandlers finally?)⟩
  | jump | branch | enumerate | advance | switch => exact .inl ⟨rfl, rfl⟩

/-! ## Parts by the numbers of blocks -/

namespace Chart

variable {body : BodyEnv} {graph : Graph} {draft : Draft} {layout : Layout} {c : Chart}
  {stage : Stage}

/-- A stage is a part of an edge. -/
structure PartOf (graph : Graph) (stage : Stage) (edge : Edge) : Prop where
  source : edge.source = stage.source
  part : stage.part ∈ edge.kind.parts
  ends : graph.outgoing? stage.source = some edge
  fits : edge.kind.Fits graph edge.source

/-- The edge that a stage is a part of. -/
theorem Staged.exists_edge {env : LayoutEnv} (h : c.Staged env) (hg : env.graph.Built)
    (hs : stage ∈ c.opened) :
    ∃ i : Fin env.graph.edges.size, PartOf env.graph stage env.graph.edges[i] := by
  have hpart := h.mem_parts hs
  unfold Graph.parts at hpart
  split at hpart
  case h_1 edge hedge =>
    obtain ⟨hsource, e, he⟩ := hg.source_outgoing? hedge
    obtain ⟨hlt, heq⟩ := Array.getElem?_eq_some_iff.mp he
    have part : PartOf env.graph stage edge :=
      ⟨hsource, hpart, hedge, hg.fits he⟩
    exact ⟨⟨e, hlt⟩, heq ▸ part⟩
  case h_2 => cases hpart

namespace PartOf

variable {edge other : Edge} {inner : Stage}

theorem range (h : PartOf graph stage edge) : stage.part.range ∈ edge.kind.ranges := by
  rw [← EdgeKind.ranges_parts]
  exact List.mem_map_of_mem h.part

theorem successors (h : PartOf graph stage edge) :
    graph.successors stage.source = edge.kind.targets := by
  simp only [Graph.successors, h.ends]

theorem parts (h : PartOf graph stage edge) : graph.parts stage.source = edge.kind.parts := by
  simp only [Graph.parts, h.ends]

theorem exists_span (h : PartOf graph stage edge) : ∃ span, span ∈ edge.kind.span? := by
  have part := h.part
  cases hk : edge.kind with
  | tryCatch => exact ⟨_, rfl⟩
  | jump | branch | enumerate | advance | switch =>
    rw [hk] at part
    cases part

end PartOf

namespace Final

/-- The range of a part that has been opened ends at a block that exists. -/
theorem past_lt (h : c.Final body graph draft layout) (hg : graph.Built) (hs : stage ∈ c.opened) :
    stage.part.range.past < graph.blocks.size := by
  obtain ⟨plotted, -⟩ := h.recorded
  obtain ⟨i, part⟩ := plotted.staged.exists_edge hg hs
  have hpast : stage.part.range.past ∈ graph.successors stage.source := by
    rw [show graph.successors stage.source = _ from part.successors]
    have hrange := part.range
    unfold EdgeKind.ranges at hrange
    split at hrange
    · exact past_mem_of_mem_rangesBetween hrange
    · cases hrange
  have placed : stage.source ∈ c.state.placed := by
    rw [plotted.staged.placed]
    exact List.mem_map_of_mem (plotted.staged.source stage hs)
  exact h.complete.laid.exist _ (h.complete.targets _ placed _ hpast)

/-- **A block is in a part of a `try`** exactly if its number is in the range of the part. -/
theorem belongs_iff (h : c.Final body graph draft layout) (hg : graph.Built) (hl : graph.Laminar)
    (hs : stage ∈ c.opened) {x : PlacedBlock} (hx : x ∈ c.placements)
    (hne : x.block ≠ Graph.exit) :
    stage.path <:+ x.path ↔ stage.part.range.contains x.block = true := by
  obtain ⟨plotted, -⟩ := h.recorded
  have staged := plotted.staged
  obtain ⟨i, part⟩ := staged.exists_edge hg hs
  -- From the block out, through the blocks whose `try`s are around it.
  induction hn : x.path.length using Nat.strong_induction_on generalizing x with
  | _ n ih =>
    have range := staged.ranges x hx hne
    obtain hnil | ⟨inner, hinner, hpath⟩ := staged.known x hx
    · refine iff_of_false (fun hsuffix => ?_) (fun hb => ?_)
      · rw [hnil] at hsuffix
        cases List.suffix_nil.mp hsuffix
      · rw [hnil] at range
        have outside := innermost?_eq_none range
          (mem_protectedRanges.mpr ⟨_, Array.getElem_mem _, part.range⟩)
        rw [hb] at outside
        cases outside
    · rw [← hpath] at range ⊢
      obtain ⟨-, hinside, least⟩ := innermost?_eq_some range
      obtain ⟨j, partInner⟩ := staged.exists_edge hg hinner
      have hy := staged.source inner hinner
      by_cases hsame : stage.source = inner.source
      · -- Two parts of one `try`.
        have outer : stage.outer = inner.outer :=
          congrArg PlacedBlock.path (staged.placement_unique (staged.source stage hs) hy hsame)
        have same := part.ends.symm.trans ((congrArg graph.outgoing? hsame).trans partInner.ends)
        refine ⟨fun hsuffix => ?_, fun hb => ?_⟩
        · obtain he | hsuffix := List.suffix_cons_iff.mp hsuffix
          · rw [staged.stage_unique hs hinner he]
            exact hinside
          · have := hsuffix.length_le
            rw [← outer] at this
            simp only [Stage.path, List.length_cons] at this
            omega
        · have ranges := range_unique part.fits part.range
            (Option.some.inj same ▸ partInner.range) hb hinside
          rw [staged.known_unique (.inr ⟨stage, hs, rfl⟩) (.inr ⟨inner, hinner, rfl⟩)
            (congrArg some ranges)]
      · have distinct : j ≠ i := by
          rintro rfl
          exact hsame (part.source.symm.trans partInner.source)
        have around := ih inner.outer.length (by rw [← hn, ← hpath]; exact Nat.lt_succ_self _) hy
          (fun he => by
            have ends := partInner.ends
            rw [show inner.source = _ from he, hg.outgoing?_exit] at ends
            cases ends) rfl
        obtain ⟨span, hspan⟩ := partInner.exists_span
        have nested := hl j i distinct span hspan _ part.range
        rw [partInner.source] at nested
        have exists_x : x.block < graph.blocks.size :=
          h.complete.laid.exist _ (by
            rw [staged.placed]
            exact List.mem_map_of_mem hx)
        refine ⟨fun hsuffix => ?_, fun hb => ?_⟩
        · obtain he | hsuffix := List.suffix_cons_iff.mp hsuffix
          · rw [staged.stage_unique hs hinner he]
            exact hinside
          · rw [if_pos (around.mp hsuffix)] at nested
            exact nested x.block exists_x (contains_span partInner.fits hspan partInner.range hinside)
        · by_cases hsource : stage.part.range.contains inner.source = true
          · exact (around.mpr hsource).trans (List.suffix_cons _ _)
          · rw [if_neg hsource] at nested
            obtain apart | ⟨own, hown, within⟩ := nested
            · exact (apart x.block exists_x ⟨hb, contains_span partInner.fits hspan
                partInner.range hinside⟩).elim
            · -- The range lies in the innermost one, and is not smaller.
              have same := range_unique partInner.fits hown partInner.range
                (within x.block exists_x hb) hinside
              subst same
              have ranges := BlockRange.eq_of_includes hb (h.past_lt hg hs)
                (least _ (mem_protectedRanges.mpr ⟨_, Array.getElem_mem _, part.range⟩) hb) within
              rw [staged.known_unique (.inr ⟨stage, hs, rfl⟩) (.inr ⟨inner, hinner, rfl⟩)
                (congrArg some ranges)]

end Final

end Chart

/-! ## Regions -/

/-- The instruction belongs to a block, and is not the one that takes a caught value. -/
structure Layout.Owns (layout : Layout) (b : BlockId) (n : Nat) : Prop where
  lt : n < layout.assembled.code.size
  block : blockAt? layout.blockOffsets n = some b
  head : ∀ region ∈ layout.regions, region.isFinally = false → region.handlerStart ≠ n

/-- A region is that of a handler: it protects the instructions of the blocks that the handler
protects, and its own instructions are those of the handler's blocks. -/
structure Layout.Renders (layout : Layout) (handler : Handler) (region : Region) : Prop where
  kind : region.kind = handler.kind
  guarded : ∀ b n, b ≠ Graph.exit → layout.Owns b n →
    (region.protects n = true ↔ handler.guarded.contains b = true)
  range : ∀ b n, b ≠ Graph.exit → layout.Owns b n →
    (region.inHandler n = true ↔ handler.range.contains b = true)

section Regions

variable {body : BodyEnv} {graph : Graph} {draft : Draft} {layout : Layout} {c : Chart}
  {stage : Stage}

namespace Chart.Final

variable {handler : Handler} {part : Part} {rest : List Part} {x : PlacedBlock}

/-- The scopes around an instruction are those of its block. -/
theorem placement_of_owns (h : c.Final body graph draft layout) {b : BlockId} {n : Nat}
    (hn : layout.Owns b n) : n < c.size ∧ ⟨b, (c.cells n).path⟩ ∈ c.placements := by
  obtain ⟨plotted, listed, -⟩ := h.recorded
  have lt : n < c.size := h.size ▸ hn.lt
  refine ⟨lt, (listed.cells n lt b (h.offsets ▸ hn.block)).resolve_left ?_⟩
  rintro ⟨stage, hs, hstart, type, hkind⟩
  obtain ⟨stop, hx⟩ := h.closed hs
  obtain ⟨region, hr, kind⟩ := plotted.staged.exists_region hs hkind stop
  obtain ⟨-, start, -⟩ := Stage.region?_eq_some hr
  refine hn.head region ?_ (by rw [Region.isFinally, kind]) (start.trans hstart)
  rw [h.regions]
  exact plotted.framed.mem_regions.mpr ⟨_, hx, hr⟩

/-- A block is in the part of a `try` in front of a stage exactly if its number is. -/
theorem sibling_iff (h : c.Final body graph draft layout) (hg : graph.Built) (hl : graph.Laminar)
    (hs : stage ∈ c.opened) {stretch : Stretch} (hd : stretch ∈ stage.done) (hx : x ∈ c.placements)
    (hne : x.block ≠ Graph.exit) :
    stage.sibling stretch.part <:+ x.path ↔ stretch.part.range.contains x.block = true := by
  obtain ⟨plotted, -⟩ := h.recorded
  obtain ⟨other, hother, hpart, -, hpath⟩ := (plotted.framed.chained stage hs).closed stretch hd
  rw [← hpath, ← hpart]
  exact h.belongs_iff hg hl (plotted.staged.closed _ hother) hx hne

/-- The parts that a handler protects are those of the blocks that it protects. -/
theorem guarded_iff (h : c.Final body graph draft layout) (hg : graph.Built) (hs : stage ∈ c.opened)
    (hparts : graph.parts stage.source = part :: rest) (his : part.Is stage.part handler)
    {b : BlockId} :
    (∃ stretch ∈ stage.guarded, stretch.part.range.contains b = true) ↔
      handler.guarded.contains b = true := by
  obtain ⟨plotted, -⟩ := h.recorded
  obtain ⟨others, split⟩ := plotted.staged.parts stage hs
  have split : stage.parts ++ others = part :: rest := split.trans hparts
  rw [Stage.guarded, his.guarded]
  cases hk : handler.kind with
  | «catch» type =>
    obtain ⟨region, hr, -⟩ := plotted.staged.exists_region hs his.kind 0
    obtain ⟨-, -, -, first, done, hdone, -⟩ := Stage.region?_eq_some hr
    rw [Stage.parts, hdone] at split
    obtain ⟨rfl, -⟩ := List.cons.inj split
    simp only [his.kind, hk, hdone, List.take_succ_cons, List.take_zero, List.mem_singleton,
      exists_eq_left]
    rfl
  | «finally» =>
    obtain ⟨i, ofEdge⟩ := plotted.staged.exists_edge hg hs
    have ranges := graph.edges[i].kind.ranges_parts
    rw [← ofEdge.parts, hparts] at ranges
    have front : graph.edges[i].kind.ranges =
        stage.done.map (·.part.range) ++ stage.part.range :: others.map (·.range) := by
      rw [← ranges, ← split, Stage.parts]
      simp [Function.comp_def]
    have covered := cover_ranges (b := b) ofEdge.fits front (by rw [← ranges]; rfl)
    simp only [List.mem_map, exists_exists_and_eq_and] at covered
    simp only [his.kind, hk]
    rw [covered, BlockRange.contains_iff]
    rfl

/-- The region of a handler that has been laid out. -/
theorem renders (h : c.Final body graph draft layout) (hg : graph.Built) (hl : graph.Laminar)
    {stop : Nat} (hx : (stage, stop) ∈ c.closed) (hparts : graph.parts stage.source = part :: rest)
    (his : part.Is stage.part handler) {region : Region} (hr : stage.region? stop = some region) :
    layout.Renders handler region := by
  obtain ⟨plotted, -⟩ := h.recorded
  have hs : stage ∈ c.opened := plotted.staged.closed _ hx
  obtain ⟨hkind, -⟩ := Stage.region?_eq_some hr
  refine ⟨Option.some.inj (hkind.symm.trans his.kind), fun b n hne hn => ?_, fun b n hne hn => ?_⟩
  · obtain ⟨lt, placed⟩ := h.placement_of_owns hn
    rw [plotted.framed.protects_iff plotted.mapped plotted.staged hx hr lt,
      ← h.guarded_iff hg hs hparts his]
    exact exists_congr fun stretch => and_congr_right fun hd =>
      h.sibling_iff hg hl hs (Stage.mem_done_of_mem_guarded hd) placed hne
  · obtain ⟨lt, placed⟩ := h.placement_of_owns hn
    rw [plotted.mapped.inHandler_iff hx hr lt, ← his.range]
    exact h.belongs_iff hg hl hs placed hne

/-- The regions of the handlers of one `try`. -/
theorem forall₂_renders (h : c.Final body graph draft layout) (hg : graph.Built)
    (hl : graph.Laminar) {b : BlockId} (hparts : graph.parts b = part :: rest)
    {xs : List (Stage × Nat)} (hxs : ∀ x ∈ xs, x ∈ c.laid b) {handlers : List Handler}
    (his : List.Forall₂ part.Is (xs.map (·.1.part)) handlers) :
    List.Forall₂ layout.Renders handlers (xs.filterMap fun x => x.1.region? x.2) := by
  obtain ⟨plotted, -⟩ := h.recorded
  induction xs generalizing handlers with
  | nil =>
    cases his
    exact .nil
  | cons x xs ih =>
    cases his with
    | @cons _ handler _ handlers his others =>
      obtain ⟨hx, hsource⟩ := List.mem_filter.mp (hxs x List.mem_cons_self)
      have hparts : graph.parts x.1.source = part :: rest := by
        rw [of_decide_eq_true hsource]
        exact hparts
      obtain ⟨region, hr, -⟩ :=
        plotted.staged.exists_region (plotted.staged.closed _ hx) his.kind x.2
      rw [List.filterMap_cons, hr]
      exact .cons (h.renders hg hl hx hparts his hr)
        (ih (fun y hy => hxs y (List.mem_cons_of_mem _ hy)) others)

/-- The regions of the `try` that ends a block are its handlers. -/
theorem handlers_render (h : c.Final body graph draft layout) (hg : graph.Built)
    (hl : graph.Laminar) (hx : x ∈ c.placements) :
    List.Forall₂ layout.Renders (graph.handlers x.block)
      ((c.laid x.block).filterMap fun x => x.1.region? x.2) := by
  have parts := h.parts hg hx
  cases hedge : graph.outgoing? x.block with
  | none =>
    rw [Graph.parts, hedge, List.map_eq_nil_iff] at parts
    rw [Graph.handlers, hedge, parts]
    exact .nil
  | some edge =>
    have handlers : graph.handlers x.block = edge.kind.handlers := by rw [Graph.handlers, hedge]
    have edgeParts : graph.parts x.block = edge.kind.parts := by rw [Graph.parts, hedge]
    rw [handlers]
    obtain ⟨hparts, hhandlers⟩ | ⟨part, rest, hparts, hbody, his⟩ := edge.kind.is_handlers
    · rw [edgeParts, hparts, List.map_eq_nil_iff] at parts
      rw [hhandlers, parts]
      exact .nil
    · rw [edgeParts, hparts] at parts
      obtain ⟨first, others, hlaid, rfl, rfl⟩ := List.map_eq_cons_iff.mp parts
      -- The body has no region.
      have unhandled : first.1.region? first.2 = none := by
        unfold Stage.region?
        rw [hbody]
      rw [hlaid, List.filterMap_cons, unhandled]
      exact h.forall₂_renders hg hl (edgeParts.trans hparts)
        (fun y hy => hlaid ▸ List.mem_cons_of_mem _ hy) his

end Chart.Final

/-- A list sorted by keys has the same members. -/
theorem perm_flatMap_filter {α : Type} {l : List α} {f : α → BlockId} {keys : List BlockId}
    (hk : keys.Nodup) (h : ∀ x ∈ l, f x ∈ keys) :
    l.Perm (keys.flatMap fun k => l.filter (f · = k)) := by
  induction keys generalizing l with
  | nil =>
    cases l with
    | nil => exact .nil
    | cons x l => cases h x List.mem_cons_self
  | cons k keys ih =>
    obtain ⟨fresh, hk⟩ := List.nodup_cons.mp hk
    have others : (l.filter fun x => !decide (f x = k)).Perm
        (keys.flatMap fun k' => l.filter (f · = k')) := by
      refine (ih hk fun x hx => ?_).trans (.of_eq ?_)
      · obtain ⟨hx, hne⟩ := List.mem_filter.mp hx
        exact (List.mem_cons.mp (h x hx)).resolve_left (by simpa using hne)
      · refine List.flatMap_congr fun k' hk' => ?_
        rw [List.filter_filter]
        refine List.filter_congr fun x _ => ?_
        by_cases hx : f x = k'
        · have hne : k' ≠ k := fun he => fresh (he ▸ hk')
          simp [hx, hne]
        · simp [hx]
    exact (List.filter_append_perm _ l).symm.trans (others.append_left _)

/-- **The regions of a layout are the handlers of the graph**, if its `try`s are nested. -/
theorem regions_of_layOut {steps : List BuildStep} (hg : Graph.build steps = .ok graph)
    (hdraft : Assembler.Evolves .empty draft.asm) (hl : graph.Laminar)
    (h : (layOut body graph draft).1 = .ok layout) :
    ∃ reachable, graph.reachable? = some reachable ∧ ∃ own : BlockId → List Region,
      layout.regions.Perm (reachable.flatMap own) ∧
      ∀ b ∈ reachable, (own b).Sublist layout.regions ∧
        List.Forall₂ layout.Renders (graph.handlers b) (own b) := by
  have hg := Graph.built_of_build hg
  obtain ⟨c, final⟩ := Chart.final_of_layOut hg hdraft h
  obtain ⟨plotted, -⟩ := final.recorded
  obtain ⟨reachable, hreachable, nodup, mem⟩ := final.complete.exists_reachable
  refine ⟨reachable, hreachable, fun b => (c.laid b).filterMap fun x => x.1.region? x.2, ?_,
    fun b hb => ⟨?_, ?_⟩⟩
  · rw [final.regions, plotted.framed.regions, ← List.filterMap_flatMap]
    refine (perm_flatMap_filter nodup fun x hx => ?_).filterMap _
    rw [mem, plotted.staged.placed]
    exact List.mem_map_of_mem (plotted.staged.source _ (plotted.staged.closed x hx))
  · rw [final.regions, plotted.framed.regions]
    exact (List.filter_sublist).filterMap _
  · rw [mem, plotted.staged.placed] at hb
    obtain ⟨x, hx, rfl⟩ := List.mem_map.mp hb
    exact final.handlers_render hg hl hx

/-- A `try` in the body of another one, which has a handler and a completion. -/
def nestedGuards : List BuildStep := [
  .addBlocks 7,
  .connect 0 (.tryCatch 2 [⟨⟨"Exception"⟩, none, 6⟩] (some 7) 8),
  .connect 2 (.tryCatch 3 [⟨⟨"Failure"⟩, some "e", 4⟩] none 5),
  .connect 3 (.jump 5),
  .connect 4 (.jump 8),
  .connect 5 (.branch (.literal .null) 2 8),
  .connect 6 (.jump 8),
  .connect 7 (.jump 8),
  .connect 8 (.jump 1)]

theorem regions_of_layOut_nestedGuards :
    ∃ graph layout, Graph.build nestedGuards = .ok graph ∧ graph.Laminar ∧
      (layOut ⟨⟨[], none⟩, .ofPreset .release, "f", [], true, true⟩ graph (.start 0)).1 =
        .ok layout ∧
      ∃ reachable, graph.reachable? = some reachable ∧ ∃ own : BlockId → List Region,
        layout.regions.Perm (reachable.flatMap own) ∧
        ∀ b ∈ reachable, (own b).Sublist layout.regions ∧
          List.Forall₂ layout.Renders (graph.handlers b) (own b) := by
  have laid : ((Graph.build nestedGuards).toOption.bind fun graph =>
      if graph.Laminar then
        (layOut ⟨⟨[], none⟩, .ofPreset .release, "f", [], true, true⟩ graph
          (.start 0)).1.toOption
      else none).isSome = true := by decide +kernel
  cases hg : Graph.build nestedGuards with
  | error => rw [hg] at laid; cases laid
  | ok graph =>
    rw [hg] at laid
    simp only [Except.toOption, Option.bind_some] at laid
    split at laid
    case isTrue hl =>
      cases h : (layOut ⟨⟨[], none⟩, .ofPreset .release, "f", [], true, true⟩ graph
          (.start 0)).1 with
      | error =>
        rw [h] at laid
        cases laid
      | ok layout =>
        obtain ⟨reachable, found, own, perm, rendered⟩ := regions_of_layOut hg (.refl _) hl h
        exact ⟨graph, layout, rfl, hl, h, reachable, found, own, perm, rendered⟩
    case isFalse => cases laid

end Regions

end StackScript
