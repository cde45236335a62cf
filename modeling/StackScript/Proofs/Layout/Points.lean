import StackScript.Proofs.Layout.Placement
import StackScript.Proofs.Program.Items

/-!
# The points of a layout

The code of statements stands one behind the other, and where a statement has a place in the source,
its point is the offset of its first instruction. As no statement is without an instruction, the
offsets of points rise.

A layout lists these points block by block, in the order in which blocks are placed. What it still
takes back are jumps that end a block, and they stand behind the code of all statements; so a point
stays where it is.

## Main definitions

* `Statement.points`: the point of a statement
* `Marks`: statements in the code, with their points
* `Shown`: the statements of a listed block stand in the code, with their points
* `LayoutState.Pointed`: all blocks so far are shown, and their code stays

## Main results

* `Marks.rising`, `Marks.within`: the points of statements rise, and lie inside their code
* `keptUp_pointed`: a layout keeps the points of all blocks
* `points_of_layOut`: the points of a layout that succeeds
* `sequencePoints_of_compileRoutine`: the points of a routine that compiles
-/

namespace StackScript

open Emit Arrange

/-! ## Statements -/

/-- The point of a statement whose code starts at an offset, if it has a place in the source. -/
def Statement.points (statement : Statement) (n : Nat) : List SequencePoint :=
  statement.span.toList.map (⟨n, ·⟩)

/-- From one offset to another the code is that of statements, one behind the other, and each of
them that has a place in the source has its point at its first instruction. -/
inductive Marks (env : BodyEnv) (code : Array Instruction) :
    List Statement → Nat → Nat → List SequencePoint → Prop where
  | nil {n} : Marks env code [] n n []
  | cons {statement rest n k m points} : Stands code (emitStatement env statement) n k → n < k →
      Marks env code rest k m points →
      Marks env code (statement :: rest) n m (statement.points n ++ points)

section Marks

variable {env : BodyEnv} {code code' : Array Instruction} {statement : Statement}
  {statements : List Statement} {n m : Nat} {points : List SequencePoint} {d d' : Draft}

theorem Statement.offset_of_mem_points {point : SequencePoint} (h : point ∈ statement.points n) :
    point.offset = n := by
  obtain ⟨span, -, rfl⟩ := List.mem_map.mp h
  rfl

namespace Marks

theorem le (h : Marks env code statements n m points) : n ≤ m := by
  induction h with
  | nil => exact Nat.le_refl _
  | cons _ lt _ ih => exact Nat.le_trans (Nat.le_of_lt lt) ih

theorem same (h : Marks env code statements n m points) (same : SameUntil code code' m) :
    Marks env code' statements n m points := by
  induction h with
  | nil => exact .nil
  | cons stands lt rest ih => exact .cons (stands.same (same.mono rest.le)) lt (ih same)

/-- **The points of statements lie inside their code.** -/
theorem within (h : Marks env code statements n m points) :
    ∀ point ∈ points, n ≤ point.offset ∧ point.offset < m := by
  induction h with
  | nil => nofun
  | cons _ lt rest ih =>
    intro point mem
    obtain first | behind := List.mem_append.mp mem
    · rw [Statement.offset_of_mem_points first]
      exact ⟨Nat.le_refl _, Nat.lt_of_lt_of_le lt rest.le⟩
    · obtain ⟨le, below⟩ := ih point behind
      exact ⟨Nat.le_trans (Nat.le_of_lt lt) le, below⟩

/-- **The points of statements rise.** -/
theorem rising (h : Marks env code statements n m points) :
    points.Pairwise fun x y => x.offset < y.offset := by
  induction h with
  | nil => exact .nil
  | @cons statement rest n k m points _ lt behind ih =>
    have one : (statement.points n).Pairwise fun x y => x.offset < y.offset := by
      unfold Statement.points
      cases statement.span with
      | none => exact .nil
      | some => exact List.pairwise_singleton _ _
    refine List.pairwise_append.mpr ⟨one, ih, fun x first y later => ?_⟩
    rw [Statement.offset_of_mem_points first]
    exact Nat.lt_of_lt_of_le lt (behind.within y later).1

end Marks

/-! ## Statements that are written -/

/-- The point of a statement is where it starts. -/
theorem points_of_ends_emitStatement (on : env.settings.sequencePoints = true)
    (h : Ends (emitStatement env statement) d () d') :
    d'.asm.sequencePoints.toList =
      d.asm.sequencePoints.toList ++ statement.points d.asm.code.size := by
  have acts := ends_emitStatement h
  rw [(marksNothing_emitAction _ _ _ _ acts).2]
  unfold Statement.noted Statement.points
  cases statement.span with
  | none => exact (List.append_nil _).symm
  | some place =>
    simp only [on, if_true]
    exact Array.toList_push

/-- **Statements that are written** stand in the code, with their points. -/
theorem marks_of_ends_emitStatements (on : env.settings.sequencePoints = true)
    (h : Ends (emitStatements env statements) d () d') :
    d.asm.Compact d'.asm ∧ ∃ points,
      Marks env d'.asm.code statements d.asm.code.size d'.asm.code.size points ∧
      d'.asm.sequencePoints.toList = d.asm.sequencePoints.toList ++ points := by
  induction statements generalizing d with
  | nil =>
    obtain ⟨-, rfl⟩ := ends_pure.mp h
    exact ⟨.refl _, [], .nil, (List.append_nil _).symm⟩
  | cons statement rest ih =>
    obtain ⟨_, d₁, first, behind⟩ := ends_bind.mp h
    obtain ⟨compact, longer⟩ := compact_of_ends_emitStatement first
    obtain ⟨compact', points, marks, noted⟩ := ih behind
    refine ⟨compact.trans compact', _, .cons ?_ longer marks, ?_⟩
    · exact ⟨Nat.le_of_lt longer, d, d₁, first, rfl, rfl, fun k _ lt =>
        (compact'.grown.same k lt).symm⟩
    · rw [noted, points_of_ends_emitStatement on first, List.append_assoc]

end Marks

/-! ## Blocks -/

/-- The statements of a listed block stand in the code from its offset on, with their points. -/
def Shown (env : BodyEnv) (graph : Graph) (code : Array Instruction) (listed : BlockId × Nat)
    (stop : Nat) (points : List SequencePoint) : Prop :=
  ∃ block, graph.blocks[listed.1]? = some block ∧
    Marks env code block.statements listed.2 stop points

/-- The points belong to the listed blocks, and the code that shows them stays. -/
def Assembler.Shows (env : LayoutEnv) (asm : Assembler) (listed : BlockId × Nat)
    (points : List SequencePoint) : Prop :=
  ∃ stop, Shown env.body env.graph asm.code listed stop points ∧ asm.Lasts stop

/-- The points so far are those of the blocks that have been placed, and they rise. -/
structure LayoutState.Pointed (env : LayoutEnv) (s : LayoutState) : Prop where
  sound : s.asm.Sound
  shows : ∃ points, List.Forall₂ (s.asm.Shows env) s.blockOffsets.toList points ∧
    s.asm.sequencePoints.toList = points.flatten
  rising : s.asm.sequencePoints.toList.Pairwise fun x y => x.offset < y.offset

section Points

variable {env : LayoutEnv} {a b : Assembler} {s s' : LayoutState} {listed : BlockId × Nat}
  {points : List SequencePoint}

/-- What is shown stays so. -/
theorem Assembler.Shows.evolves (h : a.Shows env listed points) (goes : a.Evolves b)
    (hf : b.fault = none) : b.Shows env listed points := by
  obtain ⟨stop, ⟨block, known, marks⟩, lasts⟩ := h
  refine ⟨stop, ⟨block, known, marks.same fun n lt => ?_⟩, lasts.evolves goes hf⟩
  rw [lasts.2 b goes hf n lt]

/-- The start of a block marks no place of the source. -/
theorem sequencePoints_beginBlock (s : LayoutState) (b : BlockId) :
    (s.beginBlock b).asm.sequencePoints = s.asm.sequencePoints := by
  obtain ⟨l, s₁, hl, hbegin⟩ := beginBlock_cases s b
  have named := congrArg (fun x => x.2.asm.sequencePoints) hl
  rw [hbegin]
  show ((s₁.asm.elide l).mark l).sequencePoints = _
  rw [Assembler.sequencePoints_mark, Assembler.sequencePoints_elide, ← named]
  unfold LayoutState.withLabel
  split <;> rfl

namespace LayoutState.Pointed

/-- The code up to a point stays, and its instruction as well. -/
theorem lasts (h : s.Pointed env) :
    ∀ point ∈ s.asm.sequencePoints.toList, s.asm.Lasts (point.offset + 1) := by
  obtain ⟨points, shows, same⟩ := h.shows
  rw [same]
  clear same
  generalize s.blockOffsets.toList = blocks at shows
  induction shows with
  | nil => nofun
  | cons first _ ih =>
    intro point mem
    obtain here | behind := List.mem_append.mp mem
    · obtain ⟨stop, ⟨_, -, marks⟩, lasts⟩ := first
      exact lasts.mono (marks.within point here).2
    · exact ih point behind

theorem connects (h : s.Pointed env) (connects : Connects s s') (hf : s'.asm.fault = none) :
    s'.Pointed env := by
  obtain ⟨sound, ⟨points, shows, same⟩, rising⟩ := h
  have goes := connects.goes.evolves
  refine ⟨goes.sound sound hf, ⟨points, ?_, connects.points ▸ same⟩, connects.points ▸ rising⟩
  rw [connects.blockOffsets]
  exact shows.imp fun _ _ shows => shows.evolves goes hf

/-- **A block that is placed** shows its statements, behind all points so far. -/
theorem head (on : env.body.settings.sequencePoints = true) {b : BlockId} (h : s.Pointed env)
    (hs : s.Ready) (hstatements : Ends (placeStatements env b) (s.beginBlock b) () s')
    (hf : s'.asm.fault = none) : s'.Pointed env := by
  obtain ⟨block, d, known, written, -, rfl⟩ := ends_placeStatements hstatements
  obtain ⟨compact, points', marks, noted⟩ := marks_of_ends_emitStatements on written
  have before : (s.beginBlock b).draft.asm.sequencePoints = s.asm.sequencePoints :=
    sequencePoints_beginBlock s b
  rw [before] at noted
  have begun := (extends_beginBlock hs b).1
  have fault := compact.evolves.fault hf
  have sound := begun.sound h.sound fault
  -- A block starts behind code that is kept.
  have pinned := (offset_beginBlock h.sound b).2.2.1
  have stays := compact.lasts sound hf (pinned ▸ sound.lasts)
  obtain ⟨points, shows, same⟩ := h.shows
  have goes := begun.trans compact.evolves
  refine ⟨goes.sound h.sound hf, ⟨points ++ [points'], ?_, ?_⟩, ?_⟩
  · show List.Forall₂ _ (s.beginBlock b).blockOffsets.toList _
    rw [blockOffsets_beginBlock]
    exact List.rel_append (shows.imp fun _ _ shows => shows.evolves goes hf)
      (.cons ⟨_, ⟨block, known, marks⟩, stays⟩ .nil)
  · rw [List.flatten_append, List.flatten_singleton, ← same]
    exact noted
  · show d.asm.sequencePoints.toList.Pairwise _
    rw [noted]
    refine List.pairwise_append.mpr ⟨h.rising, marks.rising, fun x earlier y here => ?_⟩
    have stays := ((h.lasts x earlier).evolves begun fault).1
    exact Nat.lt_of_lt_of_le stays (marks.within y here).1

end LayoutState.Pointed

/-- What comes between blocks keeps the points, and a block that is placed adds its own. -/
theorem keptUp_pointed (on : env.body.settings.sequencePoints = true) :
    KeptUp env (LayoutState.Pointed env) where
  connects h connects hf := h.connects connects hf
  head h hs _ hstatements hf _ _ := h.head on hs hstatements hf

theorem pointed_start {draft : Draft} (sound : draft.asm.Sound)
    (unmarked : draft.asm.sequencePoints = #[]) : (LayoutState.start draft).Pointed env where
  sound := sound
  shows := ⟨[], .nil, congrArg Array.toList unmarked⟩
  rising := by
    show draft.asm.sequencePoints.toList.Pairwise _
    rw [unmarked]
    exact .nil

end Points

/-! ## Whole graphs -/

section Graphs

variable {body : BodyEnv} {graph : Graph} {draft : Draft} {layout : Layout}

/-- **The points of a layout** are those of its blocks, in the order in which they are placed. They
rise, and lie inside the code. -/
theorem points_of_layOut (on : body.settings.sequencePoints = true)
    (hdraft : Assembler.Evolves .empty draft.asm) (unmarked : draft.asm.sequencePoints = #[])
    (h : (layOut body graph draft).1 = .ok layout) :
    (∃ points, List.Forall₂ (fun listed points => ∃ stop,
        Shown body graph layout.assembled.code listed stop points) layout.blockOffsets points ∧
      layout.assembled.sequencePoints = points.flatten) ∧
    (layout.assembled.sequencePoints.Pairwise fun x y => x.offset < y.offset) ∧
    ∀ point ∈ layout.assembled.sequencePoints, point.offset < layout.assembled.code.size := by
  obtain ⟨s, hends, hfinish, hoffsets, -⟩ := ends_of_layOut h
  obtain ⟨ready, slots, starts⟩ := begins_start hdraft
  have hf := (Assembler.finish_cases hfinish).1
  obtain ⟨p, hlays, hexit⟩ := lays_of_ends_placeAll hends
  have goes := (continues_of_lays hlays ready slots starts).1
  have laid (hf : p.state.asm.fault = none) :
      p.state.Pointed ⟨body, graph, protectedRanges graph⟩ := by
    have sound := hdraft.sound Assembler.sound_empty (goes.evolves.fault hf)
    exact (keptUp_pointed on).lays hlays ready slots starts (pointed_start sound unmarked) hf
  have pointed : s.Pointed ⟨body, graph, protectedRanges graph⟩ := by
    -- The exit is placed last, and only if it is a target. It is a block with points like the
    -- others.
    split at hexit
    · obtain ⟨s₁, hstatements, written, returned⟩ := hexit.joins goes.ready goes.slots
      have fault := returned.goes.evolves.fault hf
      have begun := (extends_beginBlock goes.ready Graph.exit).1
      have exit := (laid (begun.fault (written.evolves.fault fault))).head on goes.ready
        hstatements fault
      exact exit.connects returned.toConnects hf
    · subst hexit
      exact laid hf
  rw [hoffsets, Assembler.finish_sequencePoints hfinish,
    Assembler.finish_size pointed.sound hfinish]
  obtain ⟨points, shows, same⟩ := pointed.shows
  refine ⟨⟨points, shows.imp fun _ _ shows => ?_, same⟩, pointed.rising, fun point mem => ?_⟩
  · obtain ⟨stop, ⟨block, known, marks⟩, -⟩ := shows
    exact ⟨stop, block, known, marks.same (sameUntil_of_finish hfinish stop)⟩
  · exact (pointed.lasts point mem).1

end Graphs

section Routines

variable {table : Table} {settings : Settings} {routine : Routine} {file : String}
  {site : Option String} {n : SiteId} {body : Body}

/-- The check of the receiver writes compact code, and marks no place of the source. -/
theorem marksNothing_receiverCheck (env : BodyEnv) : MarksNothing (receiverCheck env routine) := by
  unfold receiverCheck
  split
  · exact composed_loadThis.marksNothing.bind fun _ =>
      MarksNothing.bind (.emit rfl) fun _ => .bind (.emit rfl) fun _ => .emit rfl
  · exact .pure ()

/-- **The points of a routine that compiles**: one for each statement of a placed block that has a
place in the source, in the order of the blocks and of their statements, at the first instruction
of the statement. The points rise, and lie inside the code. -/
theorem sequencePoints_of_compileRoutine (on : settings.sequencePoints = true)
    (h : (compileRoutine table settings routine file site n).1 = .ok body) :
    (∃ points, List.Forall₂ (fun listed points => ∃ stop,
        Shown (routine.bodyEnv table settings site) routine.graph body.code listed stop points)
        body.blockOffsets points ∧
      body.sequencePoints = points.flatten) ∧
    (body.sequencePoints.Pairwise fun x y => x.offset < y.offset) ∧
    ∀ point ∈ body.sequencePoints, point.offset < body.code.size := by
  obtain ⟨draft, layout, checked, laid, rfl⟩ := exists_layout_of_compileRoutine h
  obtain ⟨compact, unmarked⟩ := marksNothing_receiverCheck _ _ _ _ checked
  have marked : (routine.bodyEnv table settings site).settings.sequencePoints = true := on
  exact points_of_layOut marked compact.evolves unmarked laid

/-- A `try` with dead code behind a `throw`, and an empty handler whose jump is taken back. -/
def markedTry : List BuildStep := [
  .addBlocks 3,
  .pushStatement 0 ⟨.echo (.literal (.long 1)), some ⟨1, 1, 1, 8⟩⟩,
  .connect 0 (.tryCatch 2 [⟨⟨"Exception"⟩, none, 3⟩] none 4),
  .pushStatement 2 ⟨.throw (.var "e"), some ⟨2, 3, 2, 12⟩⟩,
  .pushStatement 2 ⟨.echo (.literal (.long 2)), none⟩,
  .connect 2 (.jump 4),
  .connect 3 (.jump 4),
  .pushStatement 4 ⟨.return none, some ⟨5, 1, 5, 8⟩⟩,
  .connect 4 (.jump 1)]

theorem sequencePoints_of_compileRoutine_markedTry :
    ∃ routine : Routine, Graph.build markedTry = .ok routine.graph ∧
      ∃ body, (compileRoutine ⟨[], none⟩ (.ofPreset .debug) routine "f" none 0).1 = .ok body ∧
        body.sequencePoints.map (·.offset) = [0, 3, 10] ∧
        ∃ points, List.Forall₂ (fun listed points => ∃ stop,
            Shown (routine.bodyEnv ⟨[], none⟩ (.ofPreset .debug) none) routine.graph body.code
              listed stop points) body.blockOffsets points ∧
          body.sequencePoints = points.flatten := by
  have offsets : ((Graph.build markedTry).toOption.bind fun graph =>
      (compileRoutine ⟨[], none⟩ (.ofPreset .debug) ⟨"f", [], true, none, false, graph⟩ "f" none
        0).1.toOption).map (·.sequencePoints.map (·.offset)) = some [0, 3, 10] := by decide +kernel
  obtain ⟨body, compiles, offsets⟩ := Option.map_eq_some_iff.mp offsets
  obtain ⟨graph, hg, compiles⟩ := Option.bind_eq_some_iff.mp compiles
  exact ⟨_, ok_of_toOption hg, body, ok_of_toOption compiles, offsets,
    (sequencePoints_of_compileRoutine rfl (ok_of_toOption compiles)).1⟩

end Routines

end StackScript
