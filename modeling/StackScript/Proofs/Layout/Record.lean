import StackScript.Proofs.Layout.Handlers
import StackScript.Proofs.Layout.Ranges

/-!
# What a layout lists

A layout lists the blocks with the offsets where they start, and the parts of each `try` in the
order of the source. So the list of blocks tells which block an instruction belongs to, and the
list of regions which handlers a `try` has.

## Main definitions

* `blockAt?`: the block that an instruction belongs to
* `Chart.Listed`: the listed blocks and the cells of the code fit together
* `Chart.Tallied`: all parts of a `try` are laid out, in order
* `Chart.Final`: the chart of a layout that has succeeded

## Main results

* `Chart.Listed.step`, `Chart.Tallied.step`: every step keeps them so
* `Chart.final_of_layOut`: a layout that succeeds has a chart
-/

namespace StackScript

open Emit Arrange

/-- The block that an instruction belongs to: the last one that starts there or in front of it. -/
def blockAt? (offsets : List (BlockId × Nat)) (n : Nat) : Option BlockId :=
  (offsets.filter (·.2 ≤ n)).getLast?.map (·.1)

section BlockAt

variable {offsets : List (BlockId × Nat)} {b : BlockId} {o n : Nat}

/-- A block that starts behind an instruction does not change where that belongs. -/
theorem blockAt?_append_of_lt (h : n < o) :
    blockAt? (offsets ++ [(b, o)]) n = blockAt? offsets n := by
  simp [blockAt?, List.filter_append, h]

/-- An instruction behind the last block belongs to it. -/
theorem blockAt?_of_getLast? (h : offsets.getLast? = some (b, o)) (ho : o ≤ n) :
    blockAt? offsets n = some b := by
  obtain ⟨front, rfl⟩ := List.getLast?_eq_some_iff.mp h
  simp [blockAt?, List.filter_append, ho]

end BlockAt

/-- A level on the stack is among the scopes around the innermost one. -/
theorem Linked.suffix {levels : List Level} (h : Linked levels) {level : Level}
    (hl : level ∈ levels) : level.stage.path <:+ pathOf levels := by
  induction levels with
  | nil => cases hl
  | cons top rest ih =>
    rcases List.mem_cons.mp hl with rfl | hl
    · exact List.suffix_refl _
    · have below := ih h.2 hl
      rw [← h.1] at below
      exact below.trans (List.suffix_cons _ _)

namespace Chart

variable {env : LayoutEnv} {c c' : Chart}

/-! ## Blocks -/

/-- An instruction at the start of a `catch` handler, which takes the caught value. -/
def TakesCaught (c : Chart) (n : Nat) : Prop :=
  ∃ stage ∈ c.opened, stage.start = n ∧ ∃ type, stage.part.handler = some (.catch type)

/-- The listed blocks and the cells of the code fit together. -/
structure Listed (c : Chart) : Prop where
  offsets : ∀ x ∈ c.state.blockOffsets.toList, x.2 ≤ c.pinned
  last : ∀ b, c.phase = .block b → ∃ o, c.state.blockOffsets.toList.getLast? = some (b, o)
  cells : ∀ n < c.size, ∀ b, blockAt? c.state.blockOffsets.toList n = some b →
    c.TakesCaught n ∨ ⟨b, (c.cells n).path⟩ ∈ c.placements

theorem listed_start {draft : Draft} : (start draft).Listed where
  offsets x h := by cases h
  last b h := by cases h
  cells n _ b h := by cases h

/-- The start of a block. -/
theorem Listed.begin (h : c.Listed) (hsound : c.state.asm.Sound) (b : BlockId)
    (queue : List BlockId) : (c.begin b queue).Listed := by
  have hsound' : LayoutState.asm { c.state with queue } |>.Sound := hsound
  obtain ⟨hpinned, hsize, heq, -⟩ := offset_beginBlock hsound' b
  have listed : (c.begin b queue).state.blockOffsets.toList =
      c.state.blockOffsets.toList ++ [(b, (c.begin b queue).size)] := blockOffsets_beginBlock _ b
  refine ⟨fun x hx => ?_, fun b' hb => ?_, fun n hn b' hb => ?_⟩
  · rw [listed] at hx
    rw [show (c.begin b queue).pinned = (c.begin b queue).size from heq]
    rcases List.mem_append.mp hx with hx | hx
    · exact Nat.le_trans (h.offsets x hx) hpinned
    · rw [List.mem_singleton.mp hx]
  · cases hb
    exact ⟨_, by rw [listed, List.getLast?_concat]⟩
  · have cell : (c.begin b queue).cells n = c.cells n := fillCells_of_lt hn
    rw [listed, blockAt?_append_of_lt hn] at hb
    rw [cell]
    exact (h.cells n (Nat.lt_of_lt_of_le hn hsize) b' hb).imp_right (List.mem_cons_of_mem _)

/-- **A step keeps the blocks listed.** -/
theorem Listed.step (h : c.Listed) (hs : c.Staged env) (hm : c.Mapped)
    (hsound : c.state.asm.Sound) (hstep : Step env c c') : c'.Listed := by
  have bound : c.pinned ≤ c.size := hsound.pinned_le
  cases hstep with
  | skip => exact { h with }
  | settle => exact { h with last := fun b hb => (by cases hb) }
  | «begin» => exact h.begin hsound _ _
  | exit => exact h.begin hsound _ _
  | @stroke b state hb hstroke =>
    obtain ⟨-, offsets, -⟩ := hstroke.frame
    have pinned := hstroke.pinned_le hsound
    refine ⟨fun x hx => ?_, fun b' hb' => ?_, fun n hn b' hb' => ?_⟩
    · exact Nat.le_trans (h.offsets x (offsets ▸ hx)) pinned
    · simpa only [offsets] using h.last b' hb'
    · simp only [offsets] at hb'
      by_cases hlt : n < c.size
      · exact h.cells n hlt b' hb'
      · -- A new instruction belongs to the block that is being written.
        obtain ⟨o, hlast⟩ := h.last b hb
        have ho : o ≤ n := by
          have := h.offsets _ (List.mem_of_getLast? hlast)
          dsimp only at this
          omega
        rw [blockAt?_of_getLast? hlast ho] at hb'
        cases hb'
        right
        show ⟨b, (c.cells n).path⟩ ∈ c.placements
        rw [hm.current (by simp [hb]) n (Nat.le_of_not_lt hlt)]
        exact hs.block b hb
  | @openBody b body todo hb =>
    refine ⟨fun x hx => ?_, fun b' hb' => (by cases hb'), fun n hn b' hb' => ?_⟩
    · exact Nat.le_trans (h.offsets x hx) bound
    · have cell : (c.openBody b body todo).cells n = c.cells n := fillCells_of_lt hn
      rw [cell]
      refine (h.cells n hn b' hb').imp_left ?_
      rintro ⟨stage, hst, hn⟩
      exact ⟨stage, List.mem_cons_of_mem _ hst, hn⟩
  | @turn level rest part todo kind asm nextSite hidle hlevels htodo hpart hq hr hseed hhead =>
    refine ⟨fun x hx => ?_, fun b' hb' => (by cases hb'), fun n hn b' hb' => ?_⟩
    · show x.2 ≤ asm.pinned
      rw [hhead.pinned]
      exact Nat.le_trans (h.offsets x hx) bound
    · by_cases hlt : n < c.size
      · have cell : (c.turn level rest part todo ⟨asm, nextSite⟩).cells n = c.cells n :=
          fillCells_of_lt hlt
        rw [cell]
        refine (h.cells n hlt b' hb').imp_left ?_
        rintro ⟨stage, hst, hn⟩
        exact ⟨stage, List.mem_cons_of_mem _ hst, hn⟩
      · -- The head of a handler of a `catch` is the one instruction that no block has.
        left
        refine ⟨_, List.mem_cons_self, ?_⟩
        change n < asm.code.size at hn
        cases hhead with
        | «finally» => exact (hlt hn).elim
        | @«catch» type _ slots i =>
          refine ⟨?_, type, hpart⟩
          rw [Assembler.code_emit, Array.size_push] at hn
          show c.size = n
          have hn : n < c.size + 1 := hn
          omega
  | finish =>
    refine ⟨fun x hx => Nat.le_trans (h.offsets x hx) bound, fun b' hb' => (by cases hb'),
      h.cells⟩

/-! ## Parts -/

/-- The parts of the `try` that ends a block that have been laid out. -/
def laid (c : Chart) (b : BlockId) : List (Stage × Nat) := c.closed.filter (·.1.source = b)

/-- All parts of a `try` are laid out, in order. -/
structure Tallied (env : LayoutEnv) (c : Chart) : Prop where
  current : ∀ level ∈ c.levels,
    (c.laid level.stage.source).map (·.1.part) = level.stage.done.map (·.part)
  new : ∀ b, b ∉ c.state.placed ∨ c.phase = .block b → c.laid b = []
  all : ∀ x ∈ c.placements, c.phase ≠ .block x.block →
    (∀ level ∈ c.levels, level.stage.source ≠ x.block) →
    (c.laid x.block).map (·.1.part) = env.graph.parts x.block

theorem tallied_start {draft : Draft} : (start draft).Tallied env where
  current level h := by cases h
  new _ _ := rfl
  all x h := by cases h

section Tallied

variable {level : Level} {rest : List Level} {b : BlockId}

/-- The block of a level is not that of a level around it. -/
theorem Staged.source_ne (h : c.Staged env) (hlevels : c.levels = level :: rest) {other : Level}
    (ho : other ∈ rest) : other.stage.source ≠ level.stage.source := by
  intro he
  have linked := h.linked
  rw [hlevels] at linked
  have hlevel := h.source _ (h.levels level (hlevels ▸ List.mem_cons_self))
  have hother := h.source _ (h.levels other (hlevels ▸ List.mem_cons_of_mem _ ho))
  have outer : other.stage.outer = level.stage.outer :=
    congrArg PlacedBlock.path (h.placement_unique hother hlevel he)
  have shorter := (Linked.suffix linked.2 ho).length_le
  rw [← linked.1, ← outer] at shorter
  simp only [Stage.path, List.length_cons] at shorter
  omega

/-- One part more of the `try` that ends a block. -/
theorem laid_concat {closed : List (Stage × Nat)} {stage : Stage} {stop : Nat}
    (h : c'.closed = closed ++ [(stage, stop)]) (hc : c.closed = closed) (b : BlockId) :
    c'.laid b = if stage.source = b then c.laid b ++ [(stage, stop)] else c.laid b := by
  simp only [laid, h, hc, List.filter_append]
  by_cases hb : stage.source = b <;> simp [hb]

/-- The end of a part on the stack. -/
theorem Tallied.close (h : c.Tallied env) (hlevels : c.levels = level :: rest)
    {stop : Nat} (hclosed : c'.closed = c.closed ++ [(level.stage, stop)]) :
    (c'.laid level.stage.source).map (·.1.part) = level.stage.parts ∧
      ∀ b, level.stage.source ≠ b → c'.laid b = c.laid b := by
  refine ⟨?_, fun b hb => ?_⟩
  · rw [laid_concat hclosed rfl, if_pos rfl, List.map_append,
      h.current level (hlevels ▸ List.mem_cons_self)]
    rfl
  · rw [laid_concat hclosed rfl, if_neg hb]

/-- **A step keeps the parts tallied.** -/
theorem Tallied.step (h : c.Tallied env) (hs : c.Staged env) (hstep : Step env c c') :
    c'.Tallied env := by
  -- The block of a level has been placed.
  have sources {level : Level} (hl : level ∈ c.levels) : level.stage.source ∈ c.state.placed := by
    rw [hs.placed]
    exact List.mem_map.mpr ⟨_, hs.source _ (hs.levels level hl), rfl⟩
  -- No block is being written between the parts.
  have idle (hi : c.phase.isIdle = true) (b : BlockId) : c.phase ≠ .block b := by
    intro hb
    rw [hb] at hi
    cases hi
  have begun {b : BlockId} {queue : List BlockId} (hi : c.phase.isIdle = true)
      (hb : b ∉ c.state.placed) : (c.begin b queue).Tallied env := by
    have placed : (c.begin b queue).state.placed = b :: c.state.placed := placed_beginBlock _ _
    refine ⟨h.current, fun b' hb' => h.new b' (.inl ?_), fun x hx hne => ?_⟩
    · rw [placed] at hb'
      obtain hb' | hb' := hb'
      · exact fun hm => hb' (List.mem_cons_of_mem _ hm)
      · cases hb'
        exact hb
    · rcases List.mem_cons.mp hx with rfl | hx
      · exact (hne rfl).elim
      · exact h.all x hx (idle hi _)
  cases hstep with
  | skip => exact { h with }
  | «begin» hi _ hb => exact begun hi hb
  | exit hi _ hb => exact begun hi hb
  | stroke hb hstroke =>
    obtain ⟨placed, -⟩ := hstroke.frame
    exact ⟨h.current, fun b' hb' => h.new b' (hb'.imp_left fun hn => placed ▸ hn), h.all⟩
  | @settle b hb hparts =>
    refine ⟨h.current, fun b' hb' => h.new b' (hb'.imp_right fun hp => (by cases hp)),
      fun x hx _ hlevels => ?_⟩
    by_cases hxb : x.block = b
    · rw [hxb, hparts]
      exact congrArg _ (h.new b (.inr hb))
    · exact h.all x hx (by rw [hb]; exact fun he => hxb (Phase.block.inj he).symm) hlevels
  | @openBody b body todo hb hparts hseed =>
    refine ⟨fun l hl => ?_, fun b' hb' => h.new b' (hb'.imp_right fun hp => (by cases hp)),
      fun x hx _ hlevels => ?_⟩
    · rcases List.mem_cons.mp hl with rfl | hl
      · exact congrArg _ (h.new b (.inr hb))
      · exact h.current l hl
    · have hxb : b ≠ x.block := hlevels _ List.mem_cons_self
      exact h.all x hx (by rw [hb]; exact fun he => hxb (Phase.block.inj he))
        fun l hl => hlevels l (List.mem_cons_of_mem _ hl)
  | @turn level rest part todo kind asm nextSite hi hlevels htodo =>
    have closed : (c.turn level rest part todo ⟨asm, nextSite⟩).closed =
        c.closed ++ [(level.stage, c.size)] := rfl
    obtain ⟨done, same⟩ := h.close hlevels closed
    have hlevel : level ∈ c.levels := hlevels ▸ List.mem_cons_self
    have below {l : Level} (hl : l ∈ rest) : l ∈ c.levels := hlevels ▸ List.mem_cons_of_mem _ hl
    refine ⟨fun l hl => ?_, fun b' hb' => ?_, fun x hx _ hsources => ?_⟩
    · rcases List.mem_cons.mp hl with rfl | hl
      · refine done.trans ?_
        simp [Stage.parts, Stage.next, Stage.stretch]
      · rw [same _ (hs.source_ne hlevels hl).symm]
        exact h.current l (below hl)
    · have hne : b' ∉ c.state.placed := hb'.resolve_right fun hp => (by cases hp)
      rw [same b' fun he => hne (he ▸ sources hlevel)]
      exact h.new b' (.inl hne)
    · have hne : level.stage.source ≠ x.block := by
        have here := hsources { level with
          stage := level.stage.next c.state.asm.offset part, todo
          carried := level.carried ++ c.state.escapes } List.mem_cons_self
        exact here
      rw [same _ hne]
      refine h.all x hx (idle hi _) fun l hl => ?_
      rw [hlevels] at hl
      rcases List.mem_cons.mp hl with rfl | hl
      · exact hne
      · exact hsources l (List.mem_cons_of_mem _ hl)
  | @finish level rest queue escapes exitTargeted hi hlevels htodo =>
    have closed : (c.finish level rest queue escapes exitTargeted).closed =
        c.closed ++ [(level.stage, c.size)] := rfl
    obtain ⟨done, same⟩ := h.close hlevels closed
    have hlevel : level ∈ c.levels := hlevels ▸ List.mem_cons_self
    have below {l : Level} (hl : l ∈ rest) : l ∈ c.levels := hlevels ▸ List.mem_cons_of_mem _ hl
    refine ⟨fun l hl => ?_, fun b' hb' => ?_, fun x hx _ hsources => ?_⟩
    · rw [same _ (hs.source_ne hlevels hl).symm]
      exact h.current l (below hl)
    · have hne : b' ∉ c.state.placed := hb'.resolve_right fun hp => (by cases hp)
      rw [same b' fun he => hne (he ▸ sources hlevel)]
      exact h.new b' (.inl hne)
    · by_cases hx' : level.stage.source = x.block
      · rw [← hx', done, ← hs.todo level hlevel, htodo, List.append_nil]
      · rw [same _ hx']
        refine h.all x hx (idle hi _) fun l hl => ?_
        rw [hlevels] at hl
        rcases List.mem_cons.mp hl with rfl | hl
        · exact hx'
        · exact hsources l hl

end Tallied

/-! ## Layouts that succeed -/

/-- The chart of a layout that has succeeded. -/
structure Final (body : BodyEnv) (graph : Graph) (draft : Draft) (layout : Layout)
    (c : Chart) : Prop where
  steps : Steps ⟨body, graph, protectedRanges graph⟩ (.start draft) c
  start : Assembler.Evolves .empty draft.asm
  levels : c.levels = []
  phase : c.phase.isIdle = true ∨ c.phase = .block Graph.exit
  complete : Complete graph c.state
  finish : c.state.asm.finish body.settings.maxLocals = .ok layout.assembled
  offsets : layout.blockOffsets = c.state.blockOffsets.toList
  regions : layout.regions = c.state.regions.toList

section Final

variable {body : BodyEnv} {graph : Graph} {draft : Draft} {layout : Layout}

/-- A layout that succeeds has a chart. -/
theorem final_of_layOut (hg : graph.Built) (hdraft : Assembler.Evolves .empty draft.asm)
    (h : (layOut body graph draft).1 = .ok layout) : ∃ c : Chart, c.Final body graph draft layout := by
  obtain ⟨s, hends, hfinish, offsets, regions⟩ := ends_of_layOut h
  have complete := complete_of_ends_placeAll hg hdraft hends (Assembler.finish_cases hfinish).1
  obtain ⟨c, steps, rfl, levels, phase⟩ := steps_of_ends_placeAll hg hdraft hends
  exact ⟨c, steps, hdraft, levels, phase, complete, hfinish, offsets, regions⟩

namespace Final

theorem fault (h : c.Final body graph draft layout) : c.state.asm.fault = none :=
  (Assembler.finish_cases h.finish).1

/-- The chart of a layout that has succeeded fits the code and the lists. -/
theorem recorded (h : c.Final body graph draft layout) :
    c.Plotted ⟨body, graph, protectedRanges graph⟩ ∧ c.Listed ∧
      c.Tallied ⟨body, graph, protectedRanges graph⟩ := by
  refine h.steps.plotted (I := fun c => c.Listed ∧ c.Tallied _) h.start h.fault
    (fun _ => ⟨listed_start, tallied_start⟩) ?_
  rintro a b hstep plotted - - ⟨listed, tallied⟩
  exact ⟨listed.step plotted.staged plotted.mapped plotted.sound hstep,
    tallied.step plotted.staged hstep⟩

theorem size (h : c.Final body graph draft layout) : layout.assembled.code.size = c.size :=
  Assembler.finish_size h.recorded.1.sound h.finish

/-- All parts have been laid out. -/
theorem closed (h : c.Final body graph draft layout) {stage : Stage} (hs : stage ∈ c.opened) :
    ∃ stop, (stage, stop) ∈ c.closed := by
  refine (h.recorded.1.mapped.finished stage hs).resolve_left fun hp => ?_
  rw [Chart.path, h.levels] at hp
  cases List.suffix_nil.mp hp

/-- All parts of the `try` that ends a block have been laid out. -/
theorem parts (h : c.Final body graph draft layout) (hg : graph.Built) {x : PlacedBlock}
    (hx : x ∈ c.placements) : (c.laid x.block).map (·.1.part) = graph.parts x.block := by
  obtain ⟨-, -, tallied⟩ := h.recorded
  by_cases hp : c.phase = .block x.block
  · have exit : x.block = Graph.exit := by
      obtain hidle | hexit := h.phase
      · rw [hp] at hidle
        cases hidle
      · exact Phase.block.inj (hp.symm.trans hexit)
    rw [tallied.new x.block (.inr hp), exit]
    rw [Graph.parts, hg.outgoing?_exit]
    rfl
  · exact tallied.all x hx hp (by simp [h.levels])

end Final

end Final

end Chart

end StackScript
