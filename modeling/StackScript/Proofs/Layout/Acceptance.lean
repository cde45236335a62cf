import StackScript.Proofs.Layout.Draining

/-!
# Well-structured graphs are accepted

In a layout of a well-structured graph the root scope is drained, and then every branch goes to a
block that is placed, or to the exit, which comes last. So the code is finished without a fault,
unless it needs more local slots than there may be.

## Main definitions

* `Draft.Clear`: code in front of which nothing is wrong

## Main results

* `exists_layout_of_wellStructured`: the layout of a well-structured graph succeeds
-/

namespace StackScript

open Emit Arrange Assembler

/-! ## The start of a layout -/

/-- Code in front of which nothing is wrong: a graph can be laid out behind it. -/
structure Draft.Clear (d : Draft) : Prop where
  evolves : Evolves .empty d.asm
  faultless : d.asm.fault = none
  flat : d.asm.depth = 0
  waits : ∀ n l, d.asm.Awaits n l → ∃ o, d.asm.PlacedAt l o

theorem clear_start (n : SiteId) : (Draft.start n).Clear :=
  ⟨.refl _, rfl, rfl, fun _ _ h => by cases Array.mem_toList_iff.mpr h⟩

section Whole

variable {body : BodyEnv} {graph : Graph} {draft : Draft} {env : LayoutEnv} {s : LayoutState}

/-- The start block is outside all `try`s. -/
theorem Graph.WellStructured.innermost_start (w : graph.WellStructured) (hg : graph.Built) :
    innermost? (protectedRanges graph) start = none := by
  cases h : innermost? (protectedRanges graph) start with
  | none => rfl
  | some range =>
    obtain ⟨hr, hb, -⟩ := innermost?_eq_some h
    obtain ⟨i, hr⟩ := exists_edge_of_mem hr
    exact (Nat.not_lt_zero _ (Nat.lt_of_lt_of_le (w.bounds hg hr).2.2.2
      (BlockRange.contains_iff.mp hb).1)).elim

theorem calm_start (hd : draft.Clear) : Calm env (fun _ => False) [] (.start draft) where
  labelled := {
    ready := fun _ _ h => by cases h
    sound := hd.evolves.sound Assembler.sound_empty hd.faultless
    slots := hd.evolves.slots_sound Slots.sound_empty
    faultless := hd.faultless
    injective := fun h => by cases h
    named := fun _ h => by cases h
    marked := fun h => by cases h
    flat := fun h => by cases h }
  exit_open h := by cases h
  waits {n l} hw := .inl (hd.waits n l hw)
  found b hb := by
    obtain (hb | hb | hb | hb) | hb := hb
    · cases hb
    · rw [List.mem_singleton.mp hb]
      exact Graph.found_start
    · cases hb
    · cases hb.2
    · exact hb.elim
  entered _ h := by cases h
  acquired _ h := by cases h

/-- **The root scope is drained**, and nothing is left to do but the exit. -/
theorem exists_drain_root (hg : graph.Built) (w : graph.WellStructured) (hl : graph.Lowers body)
    (hd : draft.Clear) : ∃ s,
      Ends (drain ⟨body, graph, protectedRanges graph⟩ (drainSteps graph) .root) (.start draft) ()
        s ∧
      Calm ⟨body, graph, protectedRanges graph⟩ (fun _ => False) s.placed s ∧ s.asm.depth = 0 ∧
      s.queue = [] ∧ s.escapes = [] := by
  have frontier : Frontier graph .root (.start draft) := by
    refine ⟨fun t ht => ?_, fun t ht => by cases ht⟩
    rw [List.mem_singleton.mp ht]
    exact ⟨Nat.zero_ne_one, w.innermost_start hg⟩
  have work : (LayoutState.start draft).work graph ≤ drainSteps graph := by
    have pending : graph.pending (LayoutState.start draft).placed = targetCount graph :=
      Graph.pending_nil
    simp only [LayoutState.work, pending, drainSteps]
    simp only [LayoutState.start, List.length_singleton, List.length_nil]
    omega
  let env : LayoutEnv := ⟨body, graph, protectedRanges graph⟩
  have finishes : Finishes env (drainSteps graph) := finishes_drain w hg hl rfl _
  obtain ⟨s, hends, advances, drained⟩ := finishes .root (fun _ => False) (.start draft) (.inl rfl)
    (calm_start hd) hd.flat frontier work
  refine ⟨s, hends, advances.calm, advances.flat, drained, ?_⟩
  refine List.eq_nil_iff_forall_not_mem.mpr fun t ht => ?_
  cases (advances.frontier.escapes t ht).isLeft

/-- Where nothing is left to do, every block that is part of the layout has a place. -/
theorem exists_placedAt {b : BlockId} {l : Label} (h : s.Labelled) (hq : s.queue = [])
    (he : s.escapes = []) (hx : s.exitTargeted = true → Graph.exit ∈ s.placed)
    (hl : s.labels.lookup b = some l) (hb : s.Settled b) : ∃ o, s.asm.PlacedAt l o := by
  refine (h.marked hl).mpr ?_
  obtain hb | hb | hb | ⟨rfl, hb⟩ := hb
  · exact hb
  · rw [hq] at hb
    cases hb
  · rw [he] at hb
    cases hb
  · exact hx hb

/-- **The exit block** comes behind all others. -/
theorem exists_placeExit (hg : env.graph.Built) (hl : env.graph.Lowers env.body)
    (h : Calm env (fun _ => False) s.placed s) (hd : s.asm.depth = 0) (hq : s.queue = [])
    (he : s.escapes = []) (hx : s.exitTargeted = true) :
    ∃ s', Ends (placeExit env) s () s' ∧ s'.asm.fault = none ∧
      ∀ n l, s'.asm.Awaits n l → ∃ o, s'.asm.PlacedAt l o := by
  have reaches := (h.found Graph.exit (.inl (.inr (.inr (.inr ⟨rfl, hx⟩))))).1
  have hblock := Array.getElem?_eq_getElem hg.blocks
  obtain ⟨labelled, flat⟩ := labelled_beginBlock h.labelled h.exit_open hd
  obtain ⟨evolves, -, labels, -⟩ := extends_beginBlock h.labelled.ready Graph.exit
  obtain ⟨_, begun⟩ := begun_beginBlock h.labelled.ready h.labelled.sound labelled.faultless
  obtain ⟨s₁, hstatements, written, flat₁⟩ := exists_placeStatements env .root []
    labelled flat hblock (hl.statements _ reaches _ hblock)
  have placed : s₁.placed = Graph.exit :: s.placed :=
    written.grown.placed.trans (placed_beginBlock s _)
  have length := written.length
  rw [queue_beginBlock, escapes_beginBlock, hq, he] at length
  simp only [List.length_nil] at length
  have hq₁ : s₁.queue = [] := List.length_eq_zero_iff.mp (by omega)
  have he₁ : s₁.escapes = [] := List.length_eq_zero_iff.mp (by omega)
  -- With nothing queued any more, a label that is settled has its place.
  have all {b : BlockId} {l : Label} (hb : s₁.labels.lookup b = some l) (hs : s₁.Settled b) :
      ∃ o, s₁.asm.PlacedAt l o :=
    exists_placedAt written.labelled hq₁ he₁ (fun _ => placed ▸ List.mem_cons_self) hb hs
  refine ⟨_, ends_placeExit_of_statements hstatements, ?_, fun n l hw => ?_⟩
  · obtain ⟨pops, pushes⟩ : s₁.asm.resultLoad.pops = 0 ∧ s₁.asm.resultLoad.pushes = 1 := by
      unfold Assembler.resultLoad
      split <;> exact ⟨rfl, rfl⟩
    have loaded : (s₁.asm.emit s₁.asm.resultLoad).fault = none :=
      faultless_emit written.labelled.faultless (pops ▸ Nat.zero_le _)
    refine faultless_emit loaded ?_
    rw [depth_emit]
    exact Nat.le_trans (Nat.le_of_eq pushes.symm) (Nat.le_add_left _ _)
  · have hw : s₁.asm.Awaits n l := by simpa [Awaits] using hw
    have there : ∃ o, s₁.asm.PlacedAt l o := by
      obtain hw | hp | ⟨b, hb, hs⟩ := written.waits hw
      · obtain ⟨o, ho⟩ | ⟨b, hb, hs⟩ := h.waits (begun.waits hw)
        · have kept := (evolves.trans written.grown.evolves).kept h.labelled.sound
            written.labelled.faultless
          exact ⟨o, kept.placed l o ho⟩
        · refine all (written.grown.labels b l (labels b l hb)) (written.grown.settled ?_)
          have hs := hs.resolve_right id
          simp only [LayoutState.Settled, placed_beginBlock, queue_beginBlock, escapes_beginBlock,
            exitTargeted_beginBlock]
          exact hs.imp_left (List.mem_cons_of_mem _)
      · exact hp
      · exact all hb hs
    exact there.imp fun _ ho => by simpa [PlacedAt] using ho

/-- **A layout of a well-structured graph runs into nothing**, and all its branches have a place. -/
theorem exists_placeAll (hg : graph.Built) (w : graph.WellStructured) (hl : graph.Lowers body)
    (hd : draft.Clear) : ∃ s,
      Ends (placeAll ⟨body, graph, protectedRanges graph⟩) (.start draft) () s ∧
      s.asm.fault = none ∧ ∀ n l, s.asm.Awaits n l → ∃ o, s.asm.PlacedAt l o := by
  obtain ⟨s, hroot, calm, flat, hq, he⟩ := exists_drain_root hg w hl hd
  cases hx : s.exitTargeted with
  | true =>
    obtain ⟨s', hexit, hf, hw⟩ := exists_placeExit hg hl calm flat hq he hx
    exact ⟨s', ends_placeAll hroot (.inr ⟨hx, hexit⟩), hf, hw⟩
  | false =>
    refine ⟨s, ends_placeAll hroot (.inl ⟨hx, rfl⟩), calm.labelled.faultless, fun n l hw => ?_⟩
    obtain hp | ⟨b, hb, hs⟩ := calm.waits hw
    · exact hp
    · exact exists_placedAt calm.labelled hq he (fun h => by rw [hx] at h; cases h) hb
        (hs.resolve_right id)

/-- **A well-structured graph is accepted.** Where its statements and edges can be written and the
code needs no more local slots than there may be, the layout succeeds. -/
theorem exists_layout_of_wellStructured {steps : List BuildStep}
    (hg : Graph.build steps = .ok graph) (w : graph.WellStructured) (hl : graph.Lowers body)
    (hd : draft.Clear)
    (hmax : (layOut body graph draft).2.asm.slots.size ≤ body.settings.maxLocals) :
    ∃ layout, (layOut body graph draft).1 = .ok layout := by
  obtain ⟨s, hends, hf, hw⟩ := exists_placeAll (Graph.built_of_build hg) w hl hd
  have run : (placeAll ⟨body, graph, protectedRanges graph⟩).run (.start draft) = (.ok (), s) :=
    hends
  have last : (layOut body graph draft).2 = s.draft := by
    simp only [layOut, run]
  rw [last] at hmax
  obtain ⟨out, hout⟩ := exists_finish hf hw hmax
  refine ⟨⟨out, s.blockOffsets.toList, s.regions.toList⟩, ?_⟩
  have hout : s.draft.asm.finish body.settings.maxLocals = .ok out := hout
  simp only [layOut, run, hout]
  rfl

/-- A loop over a value whose body guards itself, and is left in front of its end. -/
def guardedLoopBody : List BuildStep := [
  .addBlocks 8,
  .connect 0 (.jump 2),
  .connect 2 (.enumerate (.literal .null) 3),
  .connect 3 (.advance 1 none "x" 4 9),
  .connect 4 (.tryCatch 5 [⟨⟨"Exception"⟩, some "e", 6⟩] (some 7) 8),
  .connect 5 (.branch (.literal .null) 8 9),
  .connect 6 (.jump 1),
  .connect 7 (.jump 8),
  .connect 8 (.jump 3),
  .connect 9 (.jump 1)]

/-- The graph that these steps build. -/
def guardedLoopGraph : Graph where
  blocks := #[⟨0, [], some 0⟩, ⟨1, [], none⟩, ⟨2, [], some 1⟩, ⟨3, [], some 2⟩, ⟨4, [], some 3⟩,
    ⟨5, [], some 4⟩,
    ⟨6, [], some 5⟩, ⟨7, [], some 6⟩, ⟨8, [], some 7⟩, ⟨9, [], some 8⟩]
  edges := #[
    ⟨0, 0, .jump 2⟩,
    ⟨1, 2, .enumerate (.literal .null) 3⟩,
    ⟨2, 3, .advance 1 none "x" 4 9⟩,
    ⟨3, 4, .tryCatch 5 [⟨⟨"Exception"⟩, some "e", 6⟩] (some 7) 8⟩,
    ⟨4, 5, .branch (.literal .null) 8 9⟩,
    ⟨5, 6, .jump 1⟩,
    ⟨6, 7, .jump 8⟩,
    ⟨7, 8, .jump 3⟩,
    ⟨8, 9, .jump 1⟩]

theorem build_guardedLoopBody : Graph.build guardedLoopBody = .ok guardedLoopGraph := rfl

theorem lt_of_reaches_guardedLoopGraph {b : BlockId} (h : guardedLoopGraph.Reaches b) : b < 10 := by
  induction h with
  | start => decide
  | @step b c _ ht ih =>
    have all : ∀ b < 10, ∀ c ∈ guardedLoopGraph.successors b, c < 10 := by decide
    exact all b ih c ht

/-- The only way into the loop starts it. -/
theorem dominates_guardedLoopGraph : guardedLoopGraph.Dominates 2 3 := by
  have early {b : BlockId} (h : guardedLoopGraph.Bypasses 2 b) : b = Graph.start := by
    induction h with
    | start => rfl
    | step _ ht hne ih =>
      subst ih
      exact (hne (List.mem_singleton.mp ht)).elim
  exact fun h => by cases early h

theorem wellStructured_guardedLoopGraph : guardedLoopGraph.WellStructured where
  targets := by decide
  ended b hb := by
    have all : ∀ b < 10, b ≠ Graph.exit → (guardedLoopGraph.outgoing? b).isSome = true := by decide
    exact all b (lt_of_reaches_guardedLoopGraph hb)
  laminar := by decide
  firsts := by decide
  bodies := by decide
  nexts := by decide
  enters := by decide
  completes := by decide
  loops edge hedge loop hloop origin horigin := by
    have hedge := Array.mem_toList_iff.mpr hedge
    simp only [guardedLoopGraph, List.mem_cons, List.not_mem_nil,
      or_false] at hedge
    obtain rfl | rfl | rfl | rfl | rfl | rfl | rfl | rfl | rfl := hedge
    all_goals cases hloop
    cases horigin
    exact dominates_guardedLoopGraph

theorem lowers_guardedLoopGraph :
    guardedLoopGraph.Lowers ⟨⟨[], none⟩, .ofPreset .release, "f", [], true, true⟩ where
  statements b hb block hblock := by
    have all : ∀ b < 10, ∀ block ∈ guardedLoopGraph.blocks[b]?,
      block.statements.isEmpty := by decide
    have empty := all b (lt_of_reaches_guardedLoopGraph hb) block hblock
    rw [List.isEmpty_iff.mp empty]
    exact ⟨.start 0, ⟨⟩, _, ends_pure.mpr ⟨rfl, rfl⟩⟩
  edges b _ edge hedge := by
    obtain ⟨-, e, he⟩ := (Graph.built_of_build build_guardedLoopBody).source_outgoing? hedge
    have hedge := Array.mem_toList_iff.mpr (Array.mem_of_getElem? he)
    simp only [guardedLoopGraph, List.mem_cons, List.not_mem_nil, or_false] at hedge
    obtain rfl | rfl | rfl | rfl | rfl | rfl | rfl | rfl | rfl := hedge
    case inr.inl | inr.inr.inr.inr.inl => exact ⟨.start 0, ⟨⟩, _, rfl⟩
    case inr.inr.inl => exact ⟨⟨.start 0, ⟨⟩, _, rfl⟩, fun _ h => by cases h⟩
    case inr.inr.inr.inl =>
      intro clause hc name hn
      cases List.mem_singleton.mp hc
      cases hn
      exact ⟨.start 0, ⟨⟩, _, rfl⟩
    all_goals trivial

theorem exists_layout_of_guardedLoopGraph :
    Graph.build guardedLoopBody = .ok guardedLoopGraph ∧ guardedLoopGraph.WellStructured ∧
      ∃ layout, (layOut ⟨⟨[], none⟩, .ofPreset .release, "f", [], true, true⟩ guardedLoopGraph
        (.start 0)).1 = .ok layout :=
  ⟨build_guardedLoopBody, wellStructured_guardedLoopGraph,
    exists_layout_of_wellStructured build_guardedLoopBody wellStructured_guardedLoopGraph
      lowers_guardedLoopGraph (clear_start 0) (by decide +kernel)⟩

end Whole

end StackScript
