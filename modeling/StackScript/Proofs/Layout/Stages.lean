import StackScript.Proofs.Layout.Chart

/-!
# The parts that have been opened

A part of a `try` is opened once, by the block that the `try` ends, in the scopes around that
block. So the range of a scope tells which part it is, and a block of the range has been placed
there.

## Main definitions

* `Linked`: each part on the stack is in the scopes of the parts below it
* `Chart.Known`: the scopes of a part that has been opened
* `Chart.Staged`: the parts that have been opened, and the blocks that have been placed

## Main results

* `Chart.Staged.step`: every step of a layout keeps it staged
* `Chart.Staged.known_unique`: a range has one place
-/

namespace StackScript

open Emit Arrange

/-- Each part on the stack is in the scopes of the parts below it. -/
def Linked : List Level → Prop
  | [] => True
  | level :: rest => level.stage.outer = pathOf rest ∧ Linked rest

/-- The parts of the `try` in front of a stage, and the stage itself. -/
def Stage.parts (stage : Stage) : List Part := stage.done.map (·.part) ++ [stage.part]

theorem Stage.parts_next (stage : Stage) (stop : Nat) (part : Part) :
    (stage.next stop part).parts = stage.parts ++ [part] := by
  simp [parts, next, stretch]

namespace Chart

/-- The scopes of a part that has been opened, or none. -/
def Known (c : Chart) (path : Path) : Prop := path = [] ∨ ∃ stage ∈ c.opened, stage.path = path

/-- The parts that have been opened and the blocks that have been placed fit together. -/
structure Staged (env : LayoutEnv) (c : Chart) : Prop where
  placed : c.state.placed = c.placements.map (·.block)
  nodup : c.state.placed.Nodup
  linked : Linked c.levels
  levels : ∀ level ∈ c.levels, level.stage ∈ c.opened
  closed : ∀ x ∈ c.closed, x.1 ∈ c.opened
  todo : ∀ level ∈ c.levels,
    level.stage.parts ++ level.todo = env.graph.parts level.stage.source
  source : ∀ stage ∈ c.opened, ⟨stage.source, stage.outer⟩ ∈ c.placements
  parts : ∀ stage ∈ c.opened, ∃ rest, stage.parts ++ rest = env.graph.parts stage.source
  known : ∀ x ∈ c.placements, c.Known x.path
  ranges : ∀ x ∈ c.placements, x.block ≠ Graph.exit →
    innermost? env.ranges x.block = (scopeOf x.path).range
  exit : ∀ x ∈ c.placements, x.block = Graph.exit → x.path = []
  /-- The first block of a part is placed, or comes next. -/
  seeds : ∀ stage ∈ c.opened, stage.part.seed ∈ c.state.placed ∨ c.phase = .head ∧
    ∃ level rest, c.levels = level :: rest ∧ level.stage = stage
  /-- A part is opened once. -/
  once : ∀ stage ∈ c.opened, ∀ stage' ∈ c.opened, stage.part.seed = stage'.part.seed →
    stage = stage'
  head : c.phase = .head → ∃ level rest, c.levels = level :: rest ∧
    c.state.queue = [level.stage.part.seed] ∧ level.stage.part.seed ∉ c.state.placed
  block : ∀ b, c.phase = .block b → ⟨b, c.path⟩ ∈ c.placements

variable {env : LayoutEnv} {c c' : Chart}

namespace Staged

/-! ## What follows -/

/-- The scopes around the next instruction are known. -/
theorem known_path (h : c.Staged env) : c.Known c.path := by
  unfold Chart.path
  cases hl : c.levels with
  | nil => exact .inl rfl
  | cons level rest => exact .inr ⟨level.stage, h.levels level (hl ▸ List.mem_cons_self), rfl⟩

/-- The scopes around a part are known. -/
theorem known_outer (h : c.Staged env) {stage : Stage} (hs : stage ∈ c.opened) :
    c.Known stage.outer :=
  h.known _ (h.source stage hs)

/-- What is around known scopes is known. -/
theorem known_suffix (h : c.Staged env) {path outer : Path} (hp : c.Known path)
    (ho : outer <:+ path) : c.Known outer := by
  induction path with
  | nil => exact .inl (List.suffix_nil.mp ho)
  | cons tag rest ih =>
    obtain rfl | hrest := List.suffix_cons_iff.mp ho
    · exact hp
    · obtain hp | ⟨stage, hs, hp⟩ := hp
      · cases hp
      · cases hp
        exact ih (h.known_outer hs) hrest

/-- A part is one of those of its `try`. -/
theorem mem_parts (h : c.Staged env) {stage : Stage} (hs : stage ∈ c.opened) :
    stage.part ∈ env.graph.parts stage.source := by
  obtain ⟨rest, hparts⟩ := h.parts stage hs
  rw [← hparts]
  simp [Stage.parts]

/-- **A range has one place**: known scopes with one range are the same. -/
theorem known_unique (h : c.Staged env) {path path' : Path} (hp : c.Known path)
    (hp' : c.Known path') (hr : (scopeOf path).range = (scopeOf path').range) :
    path = path' := by
  obtain rfl | ⟨stage, hs, rfl⟩ := hp
  · obtain rfl | ⟨stage, -, rfl⟩ := hp'
    · rfl
    · cases hr
  · obtain rfl | ⟨stage', hs', rfl⟩ := hp'
    · cases hr
    · have ranges : stage.part.range = stage'.part.range := Option.some.inj hr
      rw [h.once stage hs stage' hs' (congrArg BlockRange.first ranges)]

/-- The scopes of a part tell which part it is. -/
theorem stage_unique (h : c.Staged env) {stage stage' : Stage} (hs : stage ∈ c.opened)
    (hs' : stage' ∈ c.opened) (hp : stage.path = stage'.path) : stage = stage' := by
  refine h.once stage hs stage' hs' ?_
  have ranges : some stage.part.range = some stage'.part.range :=
    congrArg (fun path => (scopeOf path).range) hp
  exact congrArg BlockRange.first (Option.some.inj ranges)

/-- A block is placed once. -/
theorem placement_unique (h : c.Staged env) {x y : PlacedBlock} (hx : x ∈ c.placements)
    (hy : y ∈ c.placements) (hb : x.block = y.block) : x = y := by
  have nodup := h.nodup
  rw [h.placed] at nodup
  exact List.inj_on_of_nodup_map nodup hx hy hb

/-- Apart from the start of a scope, all parts have their first block. -/
theorem seed_placed (h : c.Staged env) (hp : c.phase ≠ .head) {stage : Stage}
    (hs : stage ∈ c.opened) : stage.part.seed ∈ c.state.placed :=
  (h.seeds stage hs).resolve_right fun hh => hp hh.1

/-- A scope that is drained is behind its start. -/
theorem ne_head (h : c.Staged env) (hq : c.state.queue = []) : c.phase ≠ .head := by
  intro hp
  obtain ⟨level, rest, -, hqueue, -⟩ := h.head hp
  rw [hq] at hqueue
  cases hqueue

end Staged

/-! ## Steps -/

section Steps

theorem staged_start {draft : Draft} : (start draft).Staged env where
  placed := rfl
  nodup := .nil
  linked := trivial
  levels level h := by cases h
  closed x h := by cases h
  todo level h := by cases h
  source stage h := by cases h
  parts stage h := by cases h
  known x h := by cases h
  ranges x h := by cases h
  exit x h := by cases h
  seeds stage h := by cases h
  once stage h := by cases h
  head h := by cases h
  block b h := by cases h

/-- The start of a block that belongs in the scope. -/
theorem Staged.begin (h : c.Staged env) {b : BlockId} {queue : List BlockId}
    (hb : b ∉ c.state.placed) (hhead : c.phase = .head → c.state.queue = b :: queue)
    (hrange : b ≠ Graph.exit → innermost? env.ranges b = c.scope.range)
    (hexit : b = Graph.exit → c.path = []) : (c.begin b queue).Staged env := by
  have placed : (c.begin b queue).state.placed = b :: c.state.placed :=
    placed_beginBlock _ _
  refine { h with
    placed := ?_, nodup := ?_, source := fun stage hs => List.mem_cons_of_mem _ (h.source stage hs)
    known := fun x hx => ?_, ranges := fun x hx => ?_, exit := fun x hx => ?_
    seeds := fun stage hs => .inl ?_, head := fun hp => (by cases hp)
    block := fun c' hp => ?_ }
  · rw [placed, h.placed]
    rfl
  · rw [placed]
    exact List.nodup_cons.mpr ⟨hb, h.nodup⟩
  · rcases List.mem_cons.mp hx with rfl | hx
    · exact h.known_path
    · exact h.known x hx
  · rcases List.mem_cons.mp hx with rfl | hx
    · exact hrange
    · exact h.ranges x hx
  · rcases List.mem_cons.mp hx with rfl | hx
    · exact hexit
    · exact h.exit x hx
  · rw [placed]
    obtain hs | ⟨hp, level, rest, hlevels, rfl⟩ := h.seeds stage hs
    · exact List.mem_cons_of_mem _ hs
    · -- At the start of a scope the queue holds its first block only.
      obtain ⟨level', rest', hlevels', hqueue, -⟩ := h.head hp
      rw [hlevels] at hlevels'
      cases hlevels'
      rw [hhead hp] at hqueue
      cases hqueue
      exact List.mem_cons_self
  · cases hp
    exact List.mem_cons_self

/-- The start of a part of the `try` that ends a block. -/
theorem Staged.enter (h : c.Staged env) {stage : Stage} {state : LayoutState} {level : Level}
    {rest : List Level} (hplaced : state.placed = c.state.placed) (hstage : level.stage = stage)
    (hp : c.phase ≠ .head) (hseed : stage.part.seed ∉ c.state.placed)
    (hsource : ⟨stage.source, stage.outer⟩ ∈ c.placements) (houter : stage.outer = pathOf rest)
    (htodo : stage.parts ++ level.todo = env.graph.parts stage.source)
    (hrest : ∀ level ∈ rest, level ∈ c.levels) (hlinked : Linked rest) :
    (c.enter stage state level rest).Staged env := by
  refine { h with
    placed := hplaced.trans h.placed, nodup := hplaced ▸ h.nodup
    linked := ⟨hstage ▸ houter, hlinked⟩, levels := fun l hl => ?_
    closed := fun x hx => List.mem_cons_of_mem _ (h.closed x hx), todo := fun l hl => ?_
    source := fun s hs => ?_, parts := fun s hs => ?_, known := fun x hx => ?_
    seeds := fun s hs => ?_, once := fun s hs s' hs' he => ?_, head := fun _ => ?_
    block := fun b hb => (by cases hb) }
  · rcases List.mem_cons.mp hl with rfl | hl
    · exact hstage ▸ List.mem_cons_self
    · exact List.mem_cons_of_mem _ (h.levels l (hrest l hl))
  · rcases List.mem_cons.mp hl with rfl | hl
    · rw [hstage]
      exact htodo
    · exact h.todo l (hrest l hl)
  · rcases List.mem_cons.mp hs with rfl | hs
    · exact hsource
    · exact h.source s hs
  · rcases List.mem_cons.mp hs with rfl | hs
    · exact ⟨_, htodo⟩
    · exact h.parts s hs
  · exact (h.known x hx).imp_right fun ⟨s, hs, hx⟩ => ⟨s, List.mem_cons_of_mem _ hs, hx⟩
  · rcases List.mem_cons.mp hs with rfl | hs
    · exact .inr ⟨rfl, level, rest, rfl, hstage⟩
    · left
      show _ ∈ state.placed
      rw [hplaced]
      exact h.seed_placed hp hs
  · -- The first block of the new part is not placed, those of the others are.
    rcases List.mem_cons.mp hs with rfl | old
    · rcases List.mem_cons.mp hs' with rfl | old'
      · rfl
      · exact (hseed (he ▸ h.seed_placed hp old')).elim
    · rcases List.mem_cons.mp hs' with rfl | old'
      · exact (hseed (he ▸ h.seed_placed hp old)).elim
      · exact h.once s old s' old' he
  · refine ⟨level, rest, rfl, by rw [hstage]; rfl, ?_⟩
    show _ ∉ state.placed
    rw [hplaced, hstage]
    exact hseed

/-- **A step keeps the parts and the blocks together.** -/
theorem Staged.step (h : c.Staged env) (hstep : Step env c c') : c'.Staged env := by
  -- Steps between blocks change the parts that are open, the start of a block what is placed.
  cases hstep with
  | @skip b rest hq hb =>
    refine { h with head := fun hp => ?_ }
    obtain ⟨level, rest', -, hqueue, hseed⟩ := h.head hp
    rw [hq] at hqueue
    cases hqueue
    exact (hseed hb).elim
  | «begin» hidle hq hb hne hrange =>
    exact h.begin hb (fun _ => hq) (fun _ => hrange) fun he => (hne he).elim
  | exit hidle hlevels hexit =>
    refine h.begin hexit (fun hp => ?_) (fun hne => (hne rfl).elim) fun _ => ?_
    · obtain ⟨level, rest, hl, -⟩ := h.head hp
      rw [hlevels] at hl
      cases hl
    · rw [Chart.path, hlevels]
      rfl
  | @stroke b state hb hstroke =>
    obtain ⟨placed, -⟩ := hstroke.frame
    have hp : c.phase ≠ .head := by simp [hb]
    refine { h with
      placed := placed.trans h.placed, nodup := placed ▸ h.nodup
      seeds := fun stage hs => .inl ?_, head := fun hh => (hp hh).elim }
    show _ ∈ state.placed
    rw [placed]
    exact h.seed_placed hp hs
  | settle hb =>
    have hp : c.phase ≠ .head := by simp [hb]
    exact { h with
      seeds := fun stage hs => .inl (h.seed_placed hp hs), head := fun hh => (by cases hh)
      block := fun b hb => (by cases hb) }
  | openBody hb hparts hseed =>
    exact h.enter rfl rfl (by simp [hb]) hseed (h.block _ hb) rfl hparts.symm
      (fun _ hl => hl) h.linked
  | @turn level rest part todo kind asm nextSite hidle hlevels htodo hpart hq hr hseed hhead =>
    have hlevel : level ∈ c.levels := hlevels ▸ List.mem_cons_self
    have linked := h.linked
    rw [hlevels] at linked
    have parts := h.todo level hlevel
    rw [htodo] at parts
    have entered : (c.enter (level.stage.next c.state.asm.offset part)
        { c.state.closeStage level.stage with draft := ⟨asm, nextSite⟩ }
        { level with
          stage := level.stage.next c.state.asm.offset part, todo
          carried := level.carried ++ c.state.escapes } rest).Staged env := h.enter
      rfl rfl (h.ne_head hq) hseed (h.source level.stage (h.levels level hlevel)) linked.1
      (by rw [Stage.parts_next, List.append_assoc]; exact parts)
      (fun _ hl => hlevels ▸ List.mem_cons_of_mem _ hl) linked.2
    refine { entered with closed := fun x hx => ?_ }
    rcases List.mem_append.mp hx with hx | hx
    · exact entered.closed x hx
    · rw [List.mem_singleton.mp hx]
      exact List.mem_cons_of_mem _ (h.levels level hlevel)
  | @finish level rest queue escapes exitTargeted hidle hlevels htodo hq =>
    have hlevel : level ∈ c.levels := hlevels ▸ List.mem_cons_self
    have linked := h.linked
    rw [hlevels] at linked
    have below (l : Level) (hl : l ∈ rest) : l ∈ c.levels := hlevels ▸ List.mem_cons_of_mem _ hl
    refine { h with
      linked := linked.2, levels := fun l hl => h.levels l (below l hl), closed := fun x hx => ?_
      todo := fun l hl => h.todo l (below l hl)
      seeds := fun stage hs => .inl (h.seed_placed (h.ne_head hq) hs)
      head := fun hp => (by cases hp), block := fun b hb => (by cases hb) }
    rcases List.mem_append.mp hx with hx | hx
    · exact h.closed x hx
    · rw [List.mem_singleton.mp hx]
      exact h.levels level hlevel

end Steps

end Chart

end StackScript
