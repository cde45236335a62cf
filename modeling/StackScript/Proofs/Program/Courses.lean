import StackScript.Proofs.Evaluation.Traversal
import StackScript.Proofs.Program.Members
import StackScript.Proofs.Program.Receivers

/-!
# Routines walk their graphs

The body of a routine whose graph opens no scopes walks the graph on the machine. Behind the check of
its receiver it executes the blocks of the walk and no others, one after the other and in the same
memory, and it ends as the walk ends. If the walk goes on forever, so does the body.

## Main definitions

* `Routine.course`: the walk through the graph of a routine
* `Routine.Admits`: the receiver passes the check in front of the graph

## Main results

* `exists_laysOut_of_compileRoutine`: the code of a routine is that of its graph
* `exists_finishes_of_run`: where the body ends, the walk ends
* `walks_of_compileRoutine`: the body of a routine walks its graph
-/

namespace StackScript

open Emit Arrange

/-! ## The code of a routine -/

section Code

variable {σ : Type} {table : Table} {settings : Settings} {routine : Routine} {file : String}
  {site : Option String} {n : SiteId} {body : Body} {env : BodyEnv} {draft : Draft} {u : Unit}

/-- The check of the receiver calls nothing. -/
theorem nextSite_of_ends_receiverCheck (h : Ends (receiverCheck env routine) (.start n) u draft) :
    draft.nextSite = n := by
  unfold receiverCheck at h
  split at h
  case isFalse =>
    obtain ⟨-, rfl⟩ := ends_pure.mp h
    rfl
  case isTrue =>
    unfold loadThis at h
    simp only [ends_bind, ends_emit] at h
    obtain ⟨_, d, this, _, _, rfl, _, _, rfl, rfl⟩ := h
    split at this
    · exact (not_ends_throw this).elim
    · obtain rfl := ends_emit.mp this
      rfl

/-- Where the receiver is not checked, there is no code in front of the graph. -/
theorem size_of_ends_receiverCheck
    (h : Ends (receiverCheck (routine.bodyEnv table settings site) routine) (.start n) u draft)
    (unchecked : ¬ (settings.optimization = .debug ∧ routine.isStatic = false ∧
      routine.threadsContext = true)) : draft.asm.code.size = 0 := by
  unfold receiverCheck at h
  rw [if_neg] at h
  · obtain ⟨-, rfl⟩ := ends_pure.mp h
    rfl
  · simpa [Routine.bodyEnv, and_assoc] using unchecked

/-- **The code of a routine** is that of its graph, behind the check of its receiver. -/
theorem exists_laysOut_of_compileRoutine (world : World σ) (built : routine.graph.Built)
    (plain : routine.graph.Unguarded)
    (h : (compileRoutine table settings routine file site n).1 = .ok body) :
    ∃ (c : Setting σ) (draft : Draft) (blocks last : LayoutState),
      c.LaysOut ⟨routine.bodyEnv table settings site, routine.graph,
        protectedRanges routine.graph⟩ draft blocks last ∧
      c.world = world ∧ c.body = body ∧
      Ends (receiverCheck (routine.bodyEnv table settings site) routine) (.start n) () draft := by
  obtain ⟨draft, layout, checks, laid, rfl⟩ := exists_layout_of_compileRoutine h
  obtain ⟨written, straight⟩ := plain_of_ends_receiverCheck checks
  obtain ⟨last, ends, finished, offsets, regions⟩ := ends_of_layOut laid
  have complete := complete_of_ends_placeAll built written ends (Assembler.finish_cases finished).1
  obtain ⟨e, edge, front, s₁, blocks, first, rest, exit⟩ :=
    exists_strand_of_ends_placeAll plain ends
  obtain ⟨ready, slots, -⟩ := begins_start written
  have strand := (Strand.block (.requeue .refl) first).trans rest
  have toBlocks := strand.continues ready slots
  -- The exit is placed last, or there is none, and neither changes what is in front of it.
  have behind : blocks.asm.Evolves last.asm ∧ last.regions = blocks.regions := by
    obtain exit | rfl := exit
    · exact ⟨(exit.continues toBlocks.ready toBlocks.slots).1.evolves, exit.regions⟩
    · exact ⟨.refl _, rfl⟩
  let c : Setting σ := {
    world
    body := routine.bodyOf file site layout
    final := last.asm
    out := layout.assembled
    maxLocals := settings.maxLocals
    written := (written.trans toBlocks.evolves).trans behind.1
    finished
    code := rfl }
  refine ⟨c, draft, blocks, last, ?_, rfl, rfl, checks⟩
  exact {
    built, plain, written, straight, exit, complete, offsets
    entered := ⟨e, edge, front, s₁, first, rest⟩
    final := rfl
    locals := (Assembler.finish_cases finished).2.2.2
    regions := by
      show layout.regions = []
      rw [regions, behind.2, strand.regions ready slots]
      rfl }

end Code

/-- The walk through the graph of a routine. The blocks draw the numbers of their call sites in the
order that is given. -/
def Routine.course {σ : Type} (routine : Routine) (table : Table) (settings : Settings)
    (site : Option String) (world : World σ) (n : SiteId) (order : List BlockId) : Course σ where
  world := world
  env := routine.bodyEnv table settings site
  graph := routine.graph
  order := order
  firstSite := n

/-! ## Entry -/

/-- The receiver passes the check in front of the graph, if the routine has one. -/
def Routine.Admits (routine : Routine) (settings : Settings) (receiver : Option Value)
    (memory : Memory) : Prop :=
  settings.optimization = .debug → routine.isStatic = false → routine.threadsContext = true →
    ∃ object, receiver = some (.object object) ∧ Carries object memory.objects

section Entry

variable {table : Table} {settings : Settings} {routine : Routine} {file : String}
  {site : Option String} {n : SiteId} {body : Body} {draft : Draft} {u : Unit} {image : Image}
  {context : ContextId} {receiver : Option Value} {args : List FrameArg} {memory : Memory}

/-- **Control comes in front of the graph** where the receiver passes the check. -/
theorem climbs_entry (built : routine.graph.Built)
    (h : (compileRoutine table settings routine file site n).1 = .ok body)
    (checks : Ends (receiverCheck (routine.bodyEnv table settings site) routine) (.start n) u draft)
    (admits : routine.Admits settings receiver memory) :
    Climbs (image.world .all context) body (.running (.enter body receiver args), memory)
      (.running { Frame.enter body receiver args with pc := draft.asm.code.size }, memory) := by
  by_cases checked : settings.optimization = .debug ∧ routine.isStatic = false ∧
      routine.threadsContext = true
  · obtain ⟨debug, instance_method, threads⟩ := checked
    obtain ⟨object, rfl, carries⟩ := admits debug instance_method threads
    have code := code_of_ends_receiverCheck checks instance_method debug instance_method threads
    have size : draft.asm.code.size = 4 := by rw [code]; rfl
    rw [size]
    exact climbs_behindCheck built h debug instance_method threads trivial carries
  · rw [size_of_ends_receiverCheck checks checked]
    exact .refl _

end Entry

/-! ## Walks on the machine -/

section Machine

variable {image : Image} {context : ContextId} {c : Setting Memory} {env : LayoutEnv}
  {draft : Draft} {blocks last : LayoutState}

/-- **Where the body ends, the walk ends.** Each block takes fuel, or goes on at a block of a lower
rank. -/
theorem exists_finishes_of_run (h : c.LaysOut env draft blocks last)
    (machine : c.world = image.world .all context) {result : Except DispatchError Value}
    {after : Memory} (fuel : Nat) {p : Position Memory} {f : Frame}
    (stands : c.StandsAt (last.enumerators.lookup ·) f p.block p.vars p.loops)
    (ends : (image.run fuel context (.frame c.body (.running f))).run p.state =
      some (result, after)) :
    ∃ visited, (c.course env draft).Finishes p visited result after := by
  have reaches {x y} (reach : c.Reaches x y) : Reaches (image.world .all context) c.body x y :=
    machine ▸ (show Reaches c.world c.body x y from reach)
  have advances {x y} (steps : c.Advances x y) :
      Relation.TransGen (Moves (image.world .all context) c.body) x y :=
    machine ▸ (show Relation.TransGen (Moves c.world c.body) x y from steps)
  have ended {m : Nat} {memory : Memory} (outcome : Except DispatchError Value)
      (ends : (image.run m context (.frame c.body (.ended outcome))).run memory =
        some (result, after)) : (result, after) = (outcome, memory) := Image.eq_of_ended ends
  -- A turn that ends at a block that is listed behind may take no fuel, so the induction is on the
  -- fuel first and on the blocks behind second.
  induction fuel using Nat.strong_induction_on generalizing p f with
  | _ fuel less =>
  induction rank : c.body.blockOffsets.length - c.body.place p.block using
    Nat.strong_induction_on generalizing p f with
  | _ rank lower =>
  obtain ⟨n, -, turns⟩ := h.turns stands
  generalize turned : (c.course env draft).turn p = r at turns
  cases turns with
  | @goesOn t loops vars s' g sweeps progress stands' =>
    suffices ∃ visited, (c.course env draft).Finishes ⟨t, vars, loops, s'⟩ visited result after from
      this.imp' _ fun _ => .goesOn turned
    obtain behind | emerges := progress
    · obtain ⟨m, le, ends'⟩ := Image.exists_fuel_of_reaches (reaches sweeps.reaches) ends
      obtain lt | same := Nat.lt_or_eq_of_le le
      · exact less m lt (p := ⟨t, vars, loops, s'⟩) stands' ends'
      · have listed := Body.place_lt_length stands'.listed
        have fewer := Nat.sub_lt_sub_left (Nat.lt_trans behind listed) behind
        exact lower _ (rank ▸ fewer) (p := ⟨t, vars, loops, s'⟩) stands' (same ▸ ends') rfl
    · obtain ⟨m, lt, ends'⟩ := Image.exists_fuel_of_advances (advances emerges.advances) ends
      exact less m lt (p := ⟨t, vars, loops, s'⟩) stands' ends'
  | @returns value _ _ emerges =>
    obtain ⟨m, -, ends'⟩ := Image.exists_fuel_of_advances (advances emerges.advances) ends
    cases ended (.ok value) ends'
    exact ⟨_, .returns turned⟩
  | @fails error _ _ emerges =>
    obtain ⟨m, -, ends'⟩ := Image.exists_fuel_of_advances (advances emerges.advances) ends
    cases ended (.error error) ends'
    exact ⟨_, .fails turned⟩
  | waits climbs unanswered =>
    obtain ⟨m, -, ends⟩ := Image.exists_fuel_of_reaches (reaches climbs.reaches) ends
    exact (Image.ne_some_of_unanswered (machine ▸ unanswered) ends).elim

end Machine

section Routines

variable {table : Table} {settings : Settings} {routine : Routine} {file : String}
  {site : Option String} {n : SiteId} {body : Body} {receiver : Option Value} {memory : Memory}

/-- **The body of a routine walks its graph.** Control goes forward to the block where the graph is
entered. However far a walk goes from there, the body executes the same blocks and no others, in the
same order and from the same states of the machine. It ends as the walk ends, with the same result
or error and the same memory; and where one of them does not end, neither does the other. -/
theorem walks_of_compileRoutine {steps : List BuildStep}
    (hg : Graph.build steps = .ok routine.graph) (plain : routine.graph.Unguarded)
    (h : (compileRoutine table settings routine file site n).1 = .ok body)
    (admits : routine.Admits settings receiver memory) (image : Image) (context : ContextId)
    (args : List FrameArg) :
    let world := image.world .all context
    let course := routine.course table settings site world n (body.blockOffsets.map (·.1))
    let first : Position Memory := ⟨Graph.start, .enter receiver args, .idle, memory⟩
    let entry : Step × Memory := (.running (.enter body receiver args), memory)
    (∃ front : Frame, (Graph.start, front.pc) ∈ body.blockOffsets ∧
      Climbs world body entry (.running front, memory) ∧
      (∀ visited p, course.Walks first visited p →
        ∃ f : Frame, (p.block, f.pc) ∈ body.blockOffsets ∧
          body.Passes world visited (.running front, memory) (.running f, p.state)) ∧
      ∀ visited result after, course.Finishes first visited result after →
        body.Passes world visited (.running front, memory) (.ended result, after)) ∧
    ∀ result after, (∃ visited, course.Finishes first visited result after) ↔
      ∃ fuel, (image.run fuel context (.ofBody body receiver args)).run memory =
        some (result, after) := by
  intro world course first entry
  have built := Graph.built_of_build hg
  obtain ⟨c, draft, blocks, last, lays, machine, rfl, checks⟩ :=
    exists_laysOut_of_compileRoutine world built plain h
  have same : course = c.course ⟨routine.bodyEnv table settings site, routine.graph,
      protectedRanges routine.graph⟩ draft := by
    rw [Setting.course, machine, nextSite_of_ends_receiverCheck checks]
    rfl
  let f : Frame := { Frame.enter c.body receiver args with pc := draft.asm.code.size }
  have front : Climbs world c.body entry (.running f, memory) :=
    climbs_entry built h checks admits
  have agrees : (Frame.enter c.body receiver args).Agrees c.final.slots (.enter receiver args) :=
    Frame.agrees_enter lays.locals
  have unset (id : Nat) (lt : id < f.locals.size) : f.locals[id]? = some .unset := by
    rw [Array.getElem?_eq_getElem lt]
    simp [f, Frame.enter]
  have stands := lays.standsAt_start (f := f) rfl rfl (agrees.congr rfl rfl rfl) unset rfl
  -- Both directions go through the layout: what the walk does the body passes, and a run of the
  -- body that ends is one of a walk that finishes.
  have finishes (visited result after) (ends : course.Finishes first visited result after) :
      c.body.Passes world visited (.running f, memory) (.ended result, after) :=
    machine ▸ lays.passes_of_finishes (same ▸ ends) stands
  refine ⟨⟨f, stands.listed, front, fun visited p walks => ?_, finishes⟩,
    fun result after => ⟨?_, ?_⟩⟩
  · obtain ⟨g, passes, at_⟩ := lays.exists_passes (same ▸ walks) stands
    exact ⟨g, at_.listed, machine ▸ passes⟩
  · rintro ⟨visited, ends⟩
    exact Image.exists_fuel_of_ended
      (front.reaches.trans (finishes visited result after ends).reaches)
  · rintro ⟨fuel, ends⟩
    obtain ⟨m, -, ends⟩ := Image.exists_fuel_of_reaches front.reaches ends
    obtain ⟨visited, finishes⟩ := exists_finishes_of_run lays machine m (p := first) stands ends
    exact ⟨visited, same ▸ finishes⟩

/-- A loop over the entries of an array that returns the last one. -/
def lastEntry : List BuildStep := [
  .addBlocks 2,
  .connect 0 (.enumerate (.array [.item (.literal (.long 10)), .item (.literal (.long 20))]) 2),
  .connect 2 (.advance 0 (some "key") "value" 3 1),
  .pushStatement 3 ⟨.return (some (.var "value")), none⟩,
  .connect 3 (.jump 2)]

/-- The number that a run ends with. -/
def Run.number? : Option (Except DispatchError Value × Memory) → Option Int64
  | some (.ok (.long n), _) => some n
  | _ => none

theorem Run.eq_of_number? {outcome : Option (Except DispatchError Value × Memory)} {n : Int64}
    (h : Run.number? outcome = some n) : ∃ after, outcome = some (.ok (.long n), after) := by
  unfold Run.number? at h
  split at h
  · cases h
    exact ⟨_, rfl⟩
  · cases h

theorem walks_of_compileRoutine_lastEntry :
    ∃ routine : Routine, Graph.build lastEntry = .ok routine.graph ∧ routine.graph.Unguarded ∧
      ∃ body, (compileRoutine ⟨[], none⟩ (.ofPreset .debug) routine "f" none 0).1 = .ok body ∧
        ∃ visited after, (routine.course ⟨[], none⟩ (.ofPreset .debug) none
            (Image.empty.world .all 0) 0 (body.blockOffsets.map (·.1))).Finishes
          ⟨Graph.start, .enter none [], .idle, .empty 0⟩ visited (.ok (.long 20)) after ∧
        ∃ front : Frame, Climbs (Image.empty.world .all 0) body
            (.running (.enter body none []), .empty 0) (.running front, .empty 0) ∧
          body.Passes (Image.empty.world .all 0) visited (.running front, .empty 0)
            (.returned (.long 20), after) := by
  have checked : ((Graph.build lastEntry).toOption.bind fun graph =>
      (compileRoutine ⟨[], none⟩ (.ofPreset .debug) ⟨"f", [], true, none, false, graph⟩ "f" none
        0).1.toOption.map fun body => (decide graph.Unguarded,
          Run.number? ((Image.empty.run 60 0 (.ofBody body none [])).run (.empty 0)))) =
      some (true, some 20) := by
    decide +kernel
  obtain ⟨graph, hg, checked⟩ := Option.bind_eq_some_iff.mp checked
  obtain ⟨body, compiles, checked⟩ := Option.map_eq_some_iff.mp checked
  obtain ⟨plain, ends⟩ := Prod.mk.inj checked
  let routine : Routine := ⟨"f", [], true, none, false, graph⟩
  have admits : routine.Admits (.ofPreset .debug) none (.empty 0) := fun _ dynamic => by cases dynamic
  have built : Graph.build lastEntry = .ok routine.graph := ok_of_toOption hg
  obtain ⟨⟨front, -, climbs, -, passes⟩, finishes⟩ := walks_of_compileRoutine built
    (of_decide_eq_true plain)
    (ok_of_toOption compiles) admits .empty 0 []
  obtain ⟨after, run⟩ := Run.eq_of_number? ends
  obtain ⟨visited, walk⟩ := (finishes (.ok (.long 20)) after).mpr ⟨60, run⟩
  exact ⟨routine, ok_of_toOption hg, of_decide_eq_true plain, body, ok_of_toOption compiles,
    visited, after, walk, front, climbs, passes visited _ after walk⟩

end Routines

end StackScript
