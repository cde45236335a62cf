import StackScript.Proofs.Layout.Keeping

/-!
# Where blocks are placed

A layout that succeeds places each block that control may reach, once, in the order of the listed
offsets, and its branches end inside the code.

## Main definitions

* `LayoutState.Laid`: the blocks so far have been placed once each, in order

## Main results

* `laid_of_lays`: a layout keeps it so
* `placement_of_layOut`: what a layout that succeeds has placed, and where
-/

namespace StackScript

open Emit Arrange

/-! ## Blocks in order -/

/-- The blocks so far have been placed once each, in the order of their offsets, and each of them
exists and ends. -/
structure LayoutState.Laid (graph : Graph) (s : LayoutState) : Prop where
  sound : s.asm.Sound
  blocks : s.blockOffsets.toList.map (·.1) = s.placed.reverse
  nodup : s.placed.Nodup
  ordered : s.blockOffsets.toList.Pairwise fun x y => x.2 ≤ y.2
  places : ∀ b o, (b, o) ∈ s.blockOffsets.toList →
    ∃ l, s.labels.lookup b = some l ∧ s.asm.PlacedAt l o
  exist : ∀ b ∈ s.placed, b < graph.blocks.size
  ended : ∀ b ∈ s.placed, b = Graph.exit ∨ (graph.outgoing? b).isSome

section Laying

variable {graph : Graph} {s s' : LayoutState} {b : BlockId}

theorem laid_start {draft : Draft} (h : draft.asm.Sound) : (LayoutState.start draft).Laid graph where
  sound := h
  blocks := rfl
  nodup := .nil
  ordered := .nil
  places b o h := by cases h
  exist b h := by cases h
  ended b h := by cases h

/-- Writing code does not move blocks. -/
theorem LayoutState.Laid.continues (h : s.Laid graph) (hc : Continues s s')
    (hf : s'.asm.fault = none) (hp : s'.placed = s.placed)
    (hb : s'.blockOffsets = s.blockOffsets) : s'.Laid graph where
  sound := hc.evolves.sound h.sound hf
  blocks := by rw [hb, hp, h.blocks]
  nodup := hp ▸ h.nodup
  ordered := hb ▸ h.ordered
  places b o hm := by
    obtain ⟨l, hl, hplaced⟩ := h.places b o (hb ▸ hm)
    exact ⟨l, hc.labels b l hl, (hc.evolves.kept h.sound hf).placed l o hplaced⟩
  exist := hp ▸ h.exist
  ended := hp ▸ h.ended

/-- A block that starts comes behind all others. -/
theorem LayoutState.Laid.beginBlock (h : s.Laid graph) (hs : s.Ready) (hslots : s.asm.slots.Sound)
    (hf : (s.beginBlock b).asm.fault = none) (hb : b ∉ s.placed) (hexist : b < graph.blocks.size)
    (hended : b = Graph.exit ∨ (graph.outgoing? b).isSome) : (s.beginBlock b).Laid graph := by
  have begun := continues_beginBlock hs hslots b
  have sound := begun.evolves.sound h.sound hf
  have kept := begun.evolves.kept h.sound hf
  have hs' : LayoutState.Ready { s with placed := b :: s.placed } := hs
  have known := label_withLabel hs' b
  have name := lookup_withLabel { s with placed := b :: s.placed } b
  have offsets := blockOffsets_withLabel { s with placed := b :: s.placed } b
  have placed := placed_beginBlock s b
  obtain ⟨l, s₁, hl, hbegin⟩ := beginBlock_cases s b
  rw [hl] at known name offsets
  rw [hbegin] at hf sound kept placed begun ⊢
  dsimp only at offsets
  -- The label of the block is put where the code ends, behind all that has a place already.
  have here : ((s₁.asm.place l).pin).PlacedAt l (s₁.asm.place l).code.size := by
    show ((s₁.asm.elide l).mark l).PlacedAt l ((s₁.asm.elide l).mark l).code.size
    have known : l < (s₁.asm.elide l).labels.size := by simpa using known
    rw [Assembler.PlacedAt, Assembler.label_mark known hf, if_pos rfl, Assembler.code_mark]
  refine ⟨sound, ?_, ?_, ?_, fun c o hc => ?_, fun c hc => ?_, fun c hc => ?_⟩
  · rw [placed, List.reverse_cons, ← h.blocks]
    simp [offsets]
  · rw [placed]
    exact List.nodup_cons.mpr ⟨hb, h.nodup⟩
  · simp only [offsets, Array.toList_push]
    refine List.pairwise_append.mpr ⟨h.ordered, List.pairwise_singleton _ _, ?_⟩
    rintro ⟨c, o⟩ hc x hx
    cases List.mem_singleton.mp hx
    obtain ⟨k, -, hk⟩ := h.places c o hc
    exact (sound.placed (kept.placed k o hk)).1
  · simp only [offsets, Array.toList_push] at hc
    obtain hc | hc := List.mem_append.mp hc
    · obtain ⟨k, hk, ho⟩ := h.places c o hc
      exact ⟨k, begun.labels c k hk, kept.placed k o ho⟩
    · cases List.mem_singleton.mp hc
      exact ⟨l, name, here⟩
  · rw [placed] at hc
    obtain rfl | hc := List.mem_cons.mp hc
    · exact hexist
    · exact h.exist c hc
  · rw [placed] at hc
    obtain rfl | hc := List.mem_cons.mp hc
    · exact hended
    · exact h.ended c hc

/-- The label of a block that has been placed has its place. -/
theorem LayoutState.Laid.placedAt (h : s.Laid graph) {l : Label} (hb : b ∈ s.placed)
    (named : s.labels.lookup b = some l) : ∃ o, s.asm.PlacedAt l o := by
  have listed : b ∈ s.blockOffsets.toList.map (·.1) := h.blocks ▸ List.mem_reverse.mpr hb
  obtain ⟨⟨_, o⟩, mem, rfl⟩ := List.mem_map.mp listed
  obtain ⟨k, known, there⟩ := h.places _ o mem
  exact ⟨o, Option.some.inj (known.symm.trans named) ▸ there⟩

end Laying

section Parts

variable {env : LayoutEnv} {p p' : Progress} {s s₁ : LayoutState} {b : BlockId}

/-- The head of a block: its label and its statements. -/
theorem LayoutState.Laid.head (h : s.Laid env.graph) (hs : s.Ready) (hslots : s.asm.slots.Sound)
    (hstatements : Ends (placeStatements env b) (s.beginBlock b) () s₁)
    (hf : s₁.asm.fault = none) (hb : b ∉ s.placed)
    (hended : b = Graph.exit ∨ (env.graph.outgoing? b).isSome) : s₁.Laid env.graph := by
  have begun := continues_beginBlock hs hslots b
  have written : Extends .root [] _ _ := extends_of_ends_head hs hslots hstatements
  obtain ⟨block, -, hblock, -⟩ := ends_placeStatements hstatements
  exact (h.beginBlock hs hslots (written.evolves.fault hf) hb (Array.getElem?_eq_some_iff.mp hblock).1
    hended).continues (written.continues begun.slots) hf written.placed written.blockOffsets

/-- A block that is placed keeps it so, and so does what comes between blocks. -/
theorem keptUp_laid (env : LayoutEnv) : KeptUp env (LayoutState.Laid env.graph) where
  connects hp connects hf := hp.continues connects.goes hf connects.placed connects.blockOffsets
  head hp hs hslots hstatements hf hb hended := hp.head hs hslots hstatements hf hb hended

/-- **A layout** places blocks once each, in order. -/
theorem laid_of_lays (h : Lays env (.drain []) p p') (hs : p.state.Ready)
    (hslots : p.state.asm.slots.Sound) (hstart : (Job.drain []).Starts p.state)
    (hp : p.state.Laid env.graph) (hf : p'.state.asm.fault = none) : p'.state.Laid env.graph :=
  (keptUp_laid env).lays h hs hslots hstart hp hf

end Parts

/-! ## Whole graphs -/

section Graphs

variable {body : BodyEnv} {graph : Graph} {draft : Draft} {layout : Layout} {s : LayoutState}

/-- A layout that succeeds has placed all blocks, and finished the code. -/
theorem ends_of_layOut (h : (layOut body graph draft).1 = .ok layout) :
    ∃ s, Ends (placeAll ⟨body, graph, protectedRanges graph⟩) (.start draft) () s ∧
      s.asm.finish body.settings.maxLocals = .ok layout.assembled ∧
      layout.blockOffsets = s.blockOffsets.toList ∧ layout.regions = s.regions.toList := by
  unfold layOut at h
  rcases hrun : (placeAll ⟨body, graph, protectedRanges graph⟩).run (.start draft) with ⟨result, s⟩
  simp only [hrun] at h
  cases result with
  | error cause => cases h
  | ok u =>
    cases hfinish : s.draft.asm.finish body.settings.maxLocals with
    | error cause =>
      rw [hfinish] at h
      cases h
    | ok assembled =>
      rw [hfinish] at h
      cases h
      exact ⟨s, hrun, hfinish, rfl, rfl⟩

/-- What a layout leaves behind is what was written. -/
theorem draft_of_layOut
    (h : Ends (placeAll ⟨body, graph, protectedRanges graph⟩) (.start draft) () s) :
    (layOut body graph draft).2 = s.draft := by
  unfold layOut
  rw [show (placeAll _).run (.start draft) = _ from h]

/-- The exit block ends in `return`. -/
theorem ExitPlaced.continues {env : LayoutEnv} {s s' : LayoutState} (h : ExitPlaced env s s')
    (hs : s.Ready) (hslots : s.asm.slots.Sound) :
    Continues s s' ∧ s'.asm.reachable = false ∧ s'.placed = Graph.exit :: s.placed ∧
      (s.Laid env.graph → Graph.exit ∉ s.placed → s'.asm.fault = none → s'.Laid env.graph) := by
  obtain ⟨s₁, hstatements, written, returned⟩ := h.joins hs hslots
  have begun := continues_beginBlock hs hslots Graph.exit
  refine ⟨(begun.trans written).trans returned.goes, ?_, ?_, fun hlaid hexit hf => ?_⟩
  · obtain ⟨s₂, -, rfl⟩ := h.placed
    simp [Instruction.isTransfer]
  · obtain ⟨block, d, -, -, -, same⟩ := ends_placeStatements hstatements
    rw [returned.placed, same]
    exact placed_beginBlock s Graph.exit
  · have keeps := keptUp_laid env
    exact keeps.connects (keeps.head hlaid hs hslots hstatements (returned.goes.evolves.fault hf)
      hexit (.inl rfl)) returned.toConnects hf

/-- A whole layout writes code. -/
theorem continues_of_ends_placeAll {env : LayoutEnv} {s s' : LayoutState} (ready : s.Ready)
    (slots : s.asm.slots.Sound) (starts : Job.Starts s (.drain []))
    (h : Ends (placeAll env) s () s') : Continues s s' := by
  obtain ⟨p, lays, last⟩ := lays_of_ends_placeAll h
  have goes := (continues_of_lays lays ready slots starts).1
  split at last
  · exact goes.trans (last.continues goes.ready goes.slots).1
  · rwa [last]

/-- What a layout of all blocks comes to. -/
structure Complete (graph : Graph) (s : LayoutState) : Prop where
  laid : s.Laid graph
  unreachable : s.asm.reachable = false
  start : Graph.start ∈ s.placed
  targets : ∀ b ∈ s.placed, ∀ t ∈ graph.successors b, t ∈ s.placed
  rooted : ∀ b ∈ s.placed, graph.Reaches b

/-- **All blocks that control may reach** are placed, and no others. -/
theorem complete_of_ends_placeAll {env : LayoutEnv} (hg : env.graph.Built)
    (hdraft : Assembler.Evolves .empty draft.asm) (h : Ends (placeAll env) (.start draft) () s)
    (hf : s.asm.fault = none) : Complete env.graph s := by
  obtain ⟨ready, slots, starts⟩ := begins_start hdraft
  obtain ⟨p, hlays, hexit⟩ := lays_of_ends_placeAll h
  obtain ⟨continues, unreachable⟩ := continues_of_lays hlays ready slots starts
  have covers := covers_of_lays hg hlays ready slots starts
  obtain ⟨-, ⟨-, seeded⟩, -⟩ := retains_of_lays hlays ready slots starts
  obtain ⟨rooted, -⟩ := rooted_of_lays hlays ready slots starts
    (fun t ht => by
      obtain ht | ht | ht | ⟨-, ht⟩ := ht
      · cases ht
      · exact List.mem_singleton.mp ht ▸ .start
      · cases ht
      · cases ht)
    (by simp [Job.seeds])
  have laid (hf : p.state.asm.fault = none) : p.state.Laid env.graph := by
    have fault := continues.evolves.fault hf
    exact laid_of_lays hlays ready slots starts
      (laid_start (hdraft.sound Assembler.sound_empty fault)) hf
  have start : Graph.start ∈ p.state.placed := seeded _ List.mem_cons_self
  have noExit : Graph.exit ∉ p.state.placed := covers.exit (by simp [LayoutState.start])
  have targets (b : BlockId) (hb : b ∈ p.state.placed) (t : BlockId)
      (ht : t ∈ env.graph.successors b) :
      t ∈ p.state.placed ∨ t = Graph.exit ∧ p.state.exitTargeted = true :=
    placed_of_settled hlays hdraft
      ((covers.targets b hb (by simp [LayoutState.start]) t ht).resolve_right (by rintro ⟨⟩))
  -- The exit block is placed behind the others if anything leads to it, and then it is the last.
  by_cases hx : p.state.exitTargeted = true
  · rw [if_pos hx] at hexit
    obtain ⟨evolves, unreachable, placed, laid'⟩ := hexit.continues continues.ready continues.slots
    have fault := evolves.evolves.fault hf
    refine ⟨laid' (laid fault) noExit hf, unreachable, ?_, fun b hb t ht => ?_, fun b hb => ?_⟩
    · rw [placed]
      exact List.mem_cons_of_mem _ start
    · rw [placed] at hb ⊢
      obtain rfl | hb := List.mem_cons.mp hb
      · have hopen := hg.exit_open
        unfold Graph.successors Graph.outgoing? at ht
        split at ht
        case h_1 edge hedge =>
          split at hedge
          case h_1 block hblock => simp_all
          case h_2 => cases hedge
        case h_2 => cases ht
      · obtain ht | ⟨rfl, -⟩ := targets b hb t ht
        · exact List.mem_cons_of_mem _ ht
        · exact List.mem_cons_self
    · rw [placed] at hb
      obtain rfl | hb := List.mem_cons.mp hb
      · exact rooted _ (.inr (.inr (.inr ⟨rfl, hx⟩)))
      · exact rooted b (.inl hb)
  · rw [if_neg hx] at hexit
    subst hexit
    refine ⟨laid hf, unreachable, start, fun b hb t ht => ?_, fun b hb => rooted b (.inl hb)⟩
    exact (targets b hb t ht).resolve_right fun h => hx h.2

/-- The blocks that a complete layout has placed are the reachable ones: what is placed hangs together
with the start, and with a block its targets are placed. -/
theorem Complete.exists_reachable {s : LayoutState} (h : Complete graph s) :
    ∃ reachable, graph.reachable? = some reachable ∧ reachable.Nodup ∧
      ∀ b, b ∈ reachable ↔ b ∈ s.placed := by
  have mem (b : BlockId) : b ∈ s.placed ↔ graph.Reaches b := by
    refine ⟨h.rooted b, fun hb => ?_⟩
    induction hb with
    | start => exact h.start
    | step _ hc ih => exact h.targets _ ih _ hc
  obtain ⟨reachable, hreachable⟩ := Graph.reachable?_of_exists
    fun b hb => h.laid.exist b ((mem b).mpr hb)
  obtain ⟨nodup, found⟩ := Graph.reachable?_spec hreachable
  exact ⟨reachable, hreachable, nodup, fun b => (found b).trans (mem b).symm⟩

/-- **Every reachable block is placed exactly once**, and no other, in the order of the listed
offsets; the offsets of blocks and of branch targets lie inside the code, and no reachable block
but the exit is without an end. -/
theorem placement_of_layOut {steps : List BuildStep} (hg : Graph.build steps = .ok graph)
    (hdraft : Assembler.Evolves .empty draft.asm)
    (h : (layOut body graph draft).1 = .ok layout) :
    ∃ reachable, graph.reachable? = some reachable ∧ reachable.Nodup ∧
      (layout.blockOffsets.map (·.1)).Perm reachable ∧
      (layout.blockOffsets.map (·.2)).Pairwise (· ≤ ·) ∧
      (∀ x ∈ layout.blockOffsets, x.2 < layout.assembled.code.size) ∧
      (∀ i ∈ layout.assembled.code, ∀ t, i.target? = some t → t < layout.assembled.code.size) ∧
      graph.unterminated? = some [] := by
  obtain ⟨s, hends, hfinish, hoffsets, -⟩ := ends_of_layOut h
  have complete := complete_of_ends_placeAll (Graph.built_of_build hg) hdraft hends
    (Assembler.finish_cases hfinish).1
  have laid := complete.laid
  have size := Assembler.finish_size laid.sound hfinish
  obtain ⟨reachable, hreachable, nodup, mem⟩ := complete.exists_reachable
  refine ⟨reachable, hreachable, nodup, ?_, ?_, fun x hx => ?_, fun i hi t ht => ?_, ?_⟩
  · rw [hoffsets, laid.blocks]
    refine (List.perm_ext_iff_of_nodup (List.nodup_reverse.mpr laid.nodup) nodup).mpr fun b => ?_
    rw [List.mem_reverse, mem]
  · rw [hoffsets]
    exact List.pairwise_map.mpr laid.ordered
  · obtain ⟨b, o⟩ := x
    rw [hoffsets] at hx
    -- A block that starts at the very end of the code would be one that control falls into there.
    obtain ⟨l, -, ho⟩ := laid.places b o hx
    obtain ⟨-, hlt | ⟨-, hend⟩⟩ := laid.sound.placed ho
    · rw [size]
      exact hlt
    · rw [complete.unreachable] at hend
      cases hend
  · obtain ⟨n, hn, hi⟩ := Array.mem_iff_getElem.mp hi
    exact Assembler.finish_targets laid.sound complete.unreachable hfinish
      (Array.getElem?_eq_some_iff.mpr ⟨hn, hi⟩) ht
  · unfold Graph.unterminated?
    rw [hreachable, Option.map_some, Option.some.injEq, List.filter_eq_nil_iff]
    intro b hb
    have := laid.ended b ((mem b).mp hb)
    simpa [Option.isNone_eq_false_iff, ← Option.isSome_iff_ne_none] using
      fun hne => this.resolve_left hne

/-- A result that is there is that of a success. -/
theorem ok_of_toOption {ε α : Type} {result : Except ε α} {x : α} (h : result.toOption = some x) :
    result = .ok x := by
  cases result <;> cases h
  rfl

/-- A loop through a body with a handler and a completion, and a jump out of the body. -/
def guardedLoop : List BuildStep := [
  .addBlocks 5,
  .connect 0 (.tryCatch 2 [⟨⟨"Exception"⟩, none, 4⟩] (some 5) 6),
  .connect 2 (.branch (.literal .null) 3 2),
  .connect 3 (.jump 1),
  .connect 4 (.jump 6),
  .connect 5 (.jump 6),
  .connect 6 (.branch (.literal .null) 0 1)]

theorem placement_of_layOut_guardedLoop :
    ∃ graph layout, Graph.build guardedLoop = .ok graph ∧
      (layOut ⟨⟨[], none⟩, .ofPreset .release, "f", [], true, true⟩ graph (.start 0)).1 =
        .ok layout ∧
      ∃ reachable, graph.reachable? = some reachable ∧ reachable.Nodup ∧
        (layout.blockOffsets.map (·.1)).Perm reachable := by
  have laid : ((Graph.build guardedLoop).toOption.bind fun graph =>
      (layOut ⟨⟨[], none⟩, .ofPreset .release, "f", [], true, true⟩ graph
        (.start 0)).1.toOption).isSome = true := by decide +kernel
  cases hg : Graph.build guardedLoop with
  | error => rw [hg] at laid; cases laid
  | ok graph =>
    rw [hg] at laid
    cases hl : (layOut ⟨⟨[], none⟩, .ofPreset .release, "f", [], true, true⟩ graph
        (.start 0)).1 with
    | error =>
      simp only [Except.toOption, Option.bind_some, hl] at laid
      cases laid
    | ok layout =>
      obtain ⟨reachable, found, nodup, perm, -⟩ := placement_of_layOut hg (.refl _) hl
      exact ⟨graph, layout, rfl, hl, reachable, found, nodup, perm⟩

end Graphs

end StackScript
