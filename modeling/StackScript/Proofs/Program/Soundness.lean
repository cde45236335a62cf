import StackScript.Proofs.Layout.Acceptance
import StackScript.Proofs.Layout.Grips
import StackScript.Proofs.Machine.Faults
import StackScript.Proofs.Machine.Grips
import StackScript.Proofs.Program.Fronts

/-!
# Emitted code does not go wrong

A body finds the values that its instructions take, comes to no end of its code, and takes up a
completion at every end of a handler, whatever the answers to its requests are. Where it asks an
enumerator there is one, if every loop is advanced behind its start only.

The depth that the assembler follows is that of the stack of a running frame. It is noted in front
of every instruction to which control comes, whatever is written: labels have the depth that their
branches have, and a handler starts with the values that the machine pushes. No note is greater than
the depth that the body asks for, and each instruction finds the values that it takes.

## Main definitions

* `depths`: the analysis of the depth
* `Assembler.Measured`: the depth that the assembler follows is noted
* `Body.Leveled`: the stack of a frame is as deep as is noted

## Main results

* `Assembler.Evolves.gauges`: all writing can be noted so
* `exists_depths_of_compileRoutine`: what is noted of the body of a routine
* `Body.Runs.leveled`: the stack of every frame of every run is as deep as is noted
* `exists_grips_of_compileRoutine`: the enumerators of a routine that compiles
* `faultless_of_compileRoutine`: its body has no fault in any run
-/

namespace StackScript

open Emit Arrange

/-! ## Code -/

/-- How deep the stack is: there are enough values for each instruction, and never more than so
many. -/
def depths (most : Nat) : Analysis Nat where
  after i d := d - i.pops + i.pushes
  Allows d i := i.pops ≤ d ∧ d ≤ most
  Fits := Eq
  refl _ := rfl
  trans := Eq.trans
  jump _ _ := rfl
  target kind t d := by
    cases kind <;> exact ⟨rfl, id⟩

/-- The number of values that a handler starts with. -/
def HandlerKind.given : HandlerKind → Nat
  | .catch _ => 1
  | .finally => 0

namespace Assembler

variable {most depth n d : Nat} {asm asm₁ asm' : Assembler} {survey : Survey Nat} {i : Instruction}
  {kind : BranchKind} {l : Label}

/-- **The depth that the assembler follows** is noted, at the labels where branches go as well. -/
structure Measured (most : Nat) (asm : Assembler) (survey : Survey Nat) : Prop where
  surveyed : asm.Surveyed (depths most) survey asm.depth
  goal : survey.goal = fun l => (asm.label l).depth
  depth : asm.depth ≤ asm.maxStack
  labels : ∀ l d, (asm.label l).depth = some d → d ≤ asm.maxStack

/-- Code that goes on can be noted on. -/
def Gauges (most : Nat) (asm asm' : Assembler) : Prop :=
  ∀ survey, asm.Measured most survey →
    ∃ next, (∀ n d, survey.entry n d → next.entry n d) ∧ asm'.Measured most next

theorem Gauges.trans (h : Gauges most asm asm₁) (h' : Gauges most asm₁ asm') :
    Gauges most asm asm' := by
  intro survey m
  obtain ⟨next, entry, m⟩ := h survey m
  obtain ⟨last, entry', m⟩ := h' next m
  exact ⟨last, fun n d known => entry' n d (entry n d known), m⟩

theorem measured_empty :
    empty.Measured most ⟨fun _ => none, fun _ => none, fun n d => n = 0 ∧ d = 0⟩ where
  surveyed := surveyed_empty
  goal := by
    funext l
    simp [label, empty]
  depth := Nat.le_refl _
  labels l d known := by simp [label, empty] at known

namespace Measured

/-- What matters of the code stays as it was. -/
theorem same (m : asm.Measured most survey) (sound : asm'.Sound) (code : asm'.code = asm.code)
    (reachable : asm'.reachable = asm.reachable) (depth : asm'.depth = asm.depth)
    (maxStack : asm'.maxStack = asm.maxStack) (fixups : asm'.fixups = asm.fixups)
    (label : ∀ l, asm'.label l = asm.label l) (pinned : asm.pinned ≤ asm'.pinned) :
    asm'.Measured most survey where
  surveyed := depth ▸ m.surveyed.same sound code reachable fixups label pinned
  goal := by simp only [label, m.goal]
  depth := by rw [depth, maxStack]; exact m.depth
  labels l d known := by rw [label] at known; rw [maxStack]; exact m.labels l d known

/-- A handler starts with the values that the machine pushes. -/
theorem beginHandler (m : asm.Measured most survey) (hf : asm.fault = none)
    (unreachable : asm.reachable = false) (pinned : asm.pinned = asm.code.size) (depth : Nat) :
    (asm.beginHandler depth).Measured most (survey.noteEntry asm.code.size depth) where
  surveyed := m.surveyed.beginHandler hf unreachable pinned depth depth
  goal := m.goal
  depth := Nat.le_max_right _ _
  labels l d known := Nat.le_trans (m.labels l d known) (Nat.le_max_left _ _)

/-- An instruction that does not branch finds the values that it takes. -/
theorem emit (m : asm.Measured most survey) (ht : i.target? = none)
    (hf : (asm.emit i).fault = none) (le : asm.maxStack ≤ most) :
    (asm.emit i).Measured most (asm.surveyHere survey asm.depth) where
  surveyed := by
    have written := m.surveyed.emit ht fun _ => ⟨(fault_emit hf).2, Nat.le_trans m.depth le⟩
    rwa [show (depths most).after i asm.depth = (asm.emit i).depth from depth_emit.symm] at written
  goal := m.goal.trans (by simp only [label_emit])
  depth := by
    rw [depth_emit, maxStack_emit]
    exact Nat.le_max_right _ _
  labels l d known := by
    rw [label_emit] at known
    rw [maxStack_emit]
    exact Nat.le_trans (m.labels l d known) (Nat.le_max_left _ _)

/-- A branch goes to its label at the depth behind it. -/
theorem branch (m : asm.Measured most survey) (hl : l < asm.labels.size)
    (hf : (asm.branch kind l).fault = none) (le : asm.maxStack ≤ most) :
    (asm.branch kind l).Measured most (asm.surveyHere
      { survey with goal := fun k => ((asm.branch kind l).label k).depth } asm.depth) where
  surveyed := by
    obtain ⟨-, pops, agrees⟩ := fault_branch hf
    have after : (depths most).after (kind.instruction 0) asm.depth =
        (asm.branch kind l).depth := by
      show asm.depth - _ + _ = _
      rw [depth_branch, pushes_branch, Nat.add_zero]
    have known : ((asm.branch kind l).label l).depth = some (asm.branch kind l).depth := by
      rw [label_branch hl hf, if_pos rfl, depth_branch]
    have noted : asm.Surveyed (depths most)
        { survey with goal := fun k => ((asm.branch kind l).label k).depth } asm.depth := by
      refine m.surveyed.goals fun k _ d old => ?_
      rw [m.goal] at old
      show ((asm.branch kind l).label k).depth = _
      rw [label_branch hl hf]
      split
      case isTrue same => exact congrArg some (agrees d (same ▸ old)).symm
      case isFalse => exact old
    have written := noted.branch hl hf known (fun _ => after) fun _ =>
      ⟨pops, Nat.le_trans m.depth le⟩
    rwa [after] at written
  goal := rfl
  depth := by
    have depth : (asm.branch kind l).depth = asm.depth - (kind.instruction 0).pops := depth_branch
    rw [depth, maxStack_branch]
    exact Nat.le_max_right _ _
  labels k d known := by
    rw [label_branch hl hf] at known
    rw [maxStack_branch]
    split at known
    · cases known
      exact Nat.le_max_right _ _
    · exact Nat.le_trans (m.labels k d known) (Nat.le_max_left _ _)

/-- The depth at a label is one of the two that the array has room for. -/
theorem depthAt_le (m : asm.Measured most survey) : asm.depthAt l ≤ asm.maxStack := by
  rw [depthAt]
  split
  case isTrue => exact m.depth
  case isFalse =>
    cases known : (asm.label l).depth with
    | none => exact Nat.zero_le _
    | some d => exact m.labels l d known

/-- A label is put at the depth of its branches, or at that of the code. -/
theorem mark (m : asm.Measured most survey) (hl : l < asm.labels.size)
    (hf : (asm.mark l).fault = none) :
    (asm.mark l).Measured most
      { survey with goal := fun k => ((asm.mark l).label k).depth } where
  surveyed := by
    obtain ⟨-, -, agrees, -⟩ := fault_mark hf
    have known : ((asm.mark l).label l).depth = some (asm.mark l).depth := by
      rw [label_mark hl hf, if_pos rfl, depth_mark hf]
    refine (m.surveyed.goals fun k _ d old => ?_).mark hl hf known fun there => ?_
    · rw [m.goal] at old
      rw [label_mark hl hf]
      split
      case isTrue same => exact congrArg some (agrees d (same ▸ old)).symm
      case isFalse => exact old
    · show asm.depth = _
      rw [depth_mark hf, depthAt, if_pos there]
  goal := rfl
  depth := by
    rw [depth_mark hf, maxStack_mark]
    exact m.depthAt_le
  labels k d known := by
    rw [label_mark hl hf] at known
    rw [maxStack_mark]
    split at known
    · cases known
      exact m.depthAt_le
    · exact m.labels k d known

/-- A jump that is taken back went to the depth of the code. -/
theorem elide (m : asm.Measured most survey)
    (agrees : (asm.elide l).reachable = true → ∀ d, (asm.label l).depth = some d → d = asm.depth) :
    (asm.elide l).Measured most survey where
  surveyed := by
    rw [depth_elide]
    exact m.surveyed.elide (fun _ => rfl) fun there d known =>
      agrees there d (by rwa [m.goal] at known)
  goal := by simp only [label_elide, m.goal]
  depth := by
    rw [depth_elide, maxStack_elide]
    exact m.depth
  labels k d known := by
    rw [label_elide] at known
    rw [maxStack_elide]
    exact m.labels k d known

end Measured

/-- Writing asks for no less of the stack. -/
theorem Write.maxStack_le (h : Write asm asm') : asm.maxStack ≤ asm'.maxStack := by
  cases h with
  | emit => exact maxStack_emit ▸ Nat.le_max_left _ _
  | branch => exact maxStack_branch ▸ Nat.le_max_left _ _
  | beginHandler => exact Nat.le_max_left _ _
  | mark => exact Nat.le_of_eq maxStack_mark.symm
  | place => exact Nat.le_of_eq (maxStack_mark.trans maxStack_elide).symm
  | defineLabel | pin | sequencePoint | serve => exact Nat.le_refl _

theorem Evolves.maxStack_le (h : Evolves asm asm') : asm.maxStack ≤ asm'.maxStack := by
  induction h with
  | refl => exact Nat.le_refl _
  | tail _ step ih => exact Nat.le_trans ih step.maxStack_le

/-- **Every step of writing** can be noted. -/
theorem Write.gauges (h : Write asm asm') (hf : asm'.fault = none) (le : asm'.maxStack ≤ most) :
    Gauges most asm asm' := by
  intro survey m
  have sound := h.sound m.surveyed.sound hf
  have bound := Nat.le_trans h.maxStack_le le
  have noted {next : Survey Nat} (m : asm'.Measured most next)
      (entry : ∀ n d, survey.entry n d → next.entry n d) :
      ∃ next : Survey Nat, (∀ n d, survey.entry n d → next.entry n d) ∧
        asm'.Measured most next := ⟨next, entry, m⟩
  cases h with
  | emit ht => exact noted (m.emit ht hf bound) fun _ _ => id
  | branch hl => exact noted (m.branch hl hf bound) fun _ _ => id
  | mark hl => exact noted (m.mark hl hf) fun _ _ => id
  | @place l hl =>
    obtain ⟨-, -, agrees, -⟩ := fault_mark hf
    have elided : (asm.elide l).Measured most survey := m.elide fun there d known => by
      have depth := agrees d (by rwa [label_elide])
      rwa [depthAt, if_pos there, depth_elide] at depth
    exact noted (elided.mark (by simpa using hl) hf) fun _ _ => id
  | beginHandler unreachable pinned =>
    exact noted (m.beginHandler hf unreachable pinned _) fun _ _ => .inl
  | defineLabel =>
    exact noted (m.same sound rfl rfl rfl rfl rfl (fun _ => label_defineLabel) (Nat.le_refl _))
      fun _ _ => id
  | pin | sequencePoint =>
    exact noted (m.same sound rfl rfl rfl rfl rfl (fun _ => rfl) m.surveyed.sound.pinned_le)
      fun _ _ => id
  | serve =>
    exact noted (m.same sound rfl rfl rfl rfl rfl (fun _ => rfl) (Nat.le_refl _)) fun _ _ => id

/-- **All writing** can be noted. -/
theorem Evolves.gauges (h : Evolves asm asm') (hf : asm'.fault = none) (le : asm'.maxStack ≤ most) :
    Gauges most asm asm' := by
  induction h with
  | refl => exact fun survey m => ⟨survey, fun _ _ => id, m⟩
  | tail _ step ih =>
    exact (ih (step.fault hf) (Nat.le_trans step.maxStack_le le)).trans (step.gauges hf le)

end Assembler

/-! ## Layouts -/

namespace Chart

variable {env : LayoutEnv} {c c' : Chart} {most : Nat} {kind : HandlerKind} {a a' : Assembler}
  {survey : Survey Nat}

/-- The depths are noted, with those at the start of the code and of the handlers. -/
def Gauged (most : Nat) (c : Chart) : Prop :=
  ∃ survey : Survey Nat, c.state.asm.Measured most survey ∧ survey.entry 0 0 ∧
    ∀ stage ∈ c.opened, ∀ kind, stage.part.handler = some kind →
      survey.entry stage.start kind.given

/-- The start of a handler is noted. -/
theorem measured_of_handlerHead (h : HandlerHead kind a a') (unreachable : a.reachable = false)
    (hf : a'.fault = none) (le : a'.maxStack ≤ most) (m : a.Measured most survey) :
    ∃ next, a'.Measured most next ∧ (∀ n d, survey.entry n d → next.entry n d) ∧
      next.entry a.code.size kind.given := by
  have begun (depth : Nat) (hf : a.fault = none) :
      (a.pin.beginHandler depth).Measured most (survey.noteEntry a.code.size depth) := by
    have pinned : a.pin.Measured most survey :=
      m.same (Assembler.Write.pin.sound m.surveyed.sound hf) rfl rfl rfl rfl rfl (fun _ => rfl)
        m.surveyed.sound.pinned_le
    exact pinned.beginHandler hf unreachable rfl depth
  cases h with
  | «finally» => exact ⟨_, begun 0 hf, fun _ _ => .inl, .inr ⟨rfl, rfl⟩⟩
  | @«catch» _ _ slots i hslots hp _ =>
    have head : (a.pin.beginHandler 1).Evolves
        (Assembler.emit { a.pin.beginHandler 1 with slots } i) := by
      have served : (a.pin.beginHandler 1).Evolves { a.pin.beginHandler 1 with slots } := by
        obtain rfl | hslots := hslots
        · exact .refl _
        · exact .single (.serve hslots)
      exact served.tail (.emit (Instruction.target_of_isPlain hp))
    obtain ⟨next, entry, m⟩ := head.gauges hf le _ (begun 1 (head.fault hf))
    exact ⟨next, m, fun n d known => entry n d (.inl known), entry _ _ (.inr ⟨rfl, rfl⟩)⟩

/-- **Every step of a layout** is noted. -/
theorem Gauged.step (h : c.Gauged most) (hstep : Step env c c') (ready : c.state.Ready)
    (hf : c'.state.asm.fault = none) (le : c'.state.asm.maxStack ≤ most) : c'.Gauged most := by
  obtain ⟨survey, m, start, handlers⟩ := h
  obtain ⟨next, entry, m'⟩ := (hstep.evolves ready).1.gauges hf le survey m
  have noted : (∀ stage ∈ c'.opened, stage ∈ c.opened ∨ stage.part.handler = none) →
      c'.Gauged most := by
    refine fun opened => ⟨next, m', entry _ _ start, fun stage mem kind known => ?_⟩
    obtain mem | none := opened stage mem
    · exact entry _ _ (handlers stage mem kind known)
    · rw [none] at known
      cases known
  cases hstep with
  | skip | «begin» | exit | stroke | settle | finish => exact noted fun _ => .inl
  | openBody _ parts =>
    refine noted fun stage mem => (List.mem_cons.mp mem).elim (fun own => .inr ?_) .inl
    rw [own]
    exact Graph.handler_body parts
  | turn _ _ _ hpart _ unreachable _ head =>
    obtain ⟨next, m', entry, own⟩ := measured_of_handlerHead head unreachable hf le m
    refine ⟨next, m', entry _ _ start, fun stage mem kind known => ?_⟩
    obtain rfl | mem := List.mem_cons.mp mem
    · obtain rfl := Option.some.inj (hpart.symm.trans known)
      exact own
    · exact entry _ _ (handlers stage mem kind known)

end Chart

/-! ## Bodies -/

/-- **The depths of a routine** that compiles: those of its code, with those at its start and at the
start of its handlers. -/
theorem exists_depths_of_compileRoutine {steps : List BuildStep} {routine : Routine} {table : Table}
    {settings : Settings} {file : String} {site : Option String} {n : SiteId} {body : Body}
    (hg : Graph.build steps = .ok routine.graph)
    (h : (compileRoutine table settings routine file site n).1 = .ok body) :
    ∃ front, body.Surveyed (depths body.maxStack) front ∧
      body.Welcomes (depths body.maxStack) front 0 0 ∧
      ∀ region ∈ body.regions,
        body.Welcomes (depths body.maxStack) front region.handlerStart region.kind.given := by
  obtain ⟨draft, layout, checks, laid, rfl⟩ := exists_layout_of_compileRoutine h
  obtain ⟨evolves, -⟩ := plain_of_ends_receiverCheck checks
  obtain ⟨c, final⟩ := Chart.final_of_layOut (Graph.built_of_build hg) evolves laid
  obtain ⟨fault, -, maxStack, -⟩ := Assembler.finish_cases final.finish
  -- What the check of the receiver writes comes first.
  have start : (Chart.start draft).state.asm.maxStack ≤ c.state.asm.maxStack →
      (Chart.start draft).Gauged c.state.asm.maxStack := by
    intro le
    have fault₀ := (final.steps.evolves Chart.ready_start).1.fault fault
    obtain ⟨survey, entry, m⟩ := evolves.gauges fault₀ le _ Assembler.measured_empty
    exact ⟨survey, m, entry _ _ ⟨rfl, rfl⟩, nofun⟩
  have gauged : c.Gauged c.state.asm.maxStack := by
    refine final.steps.invariant (I := fun d => d.state.asm.maxStack ≤ c.state.asm.maxStack →
      d.Gauged c.state.asm.maxStack) Chart.ready_start fault start
      (fun hstep ready hf gauged le => ?_) (Nat.le_refl _)
    exact (gauged (Nat.le_trans (hstep.evolves ready).1.maxStack_le le)).step hstep ready hf le
  obtain ⟨survey, m, first, handlers⟩ := gauged
  have most : (routine.bodyOf file site layout).maxStack = c.state.asm.maxStack := maxStack
  have code : (routine.bodyOf file site layout).code = layout.assembled.code := rfl
  obtain ⟨surveyed, entries⟩ :=
    Body.surveyed_of_finish m.surveyed final.complete.unreachable final.finish code
  rw [most]
  refine ⟨survey.front, surveyed, entries _ _ first, fun region mem => entries _ _ ?_⟩
  have mem : region ∈ c.state.regions.toList := final.regions ▸ mem
  obtain ⟨plotted, -⟩ := final.recorded
  obtain ⟨x, closed, hregion⟩ := plotted.framed.mem_regions.mp mem
  obtain ⟨kind, begins, -⟩ := Stage.region?_eq_some hregion
  rw [begins]
  exact handlers x.1 (plotted.staged.closed x closed) _ kind

/-! ## Frames -/

namespace Body

variable {body : Body} {most n t : Nat} {front : Nat → Option Nat} {frame after : Frame}
  {history : List Frame} {i : Instruction} {table : Table} {item : WorkItem}
  {shapes : Nat → Option Shape}

/-- **The stack of a frame is as deep as is noted**, and will be empty where a `leave` that waits
goes on. -/
structure Leveled (most : Nat) (body : Body) (front : Nat → Option Nat) (frame : Frame) : Prop where
  here : body.Welcomes (depths most) front frame.pc frame.stack.length
  pending : Leads (body.Welcomes (depths most) front · 0) frame

/-- The end of a handler and a `leave` are where nothing is on the stack. -/
theorem Tracked.stack_eq_nil (bears : body.Bears table item shapes)
    (h : body.Tracked shapes frame history) (hi : body.code[frame.pc]? = some i)
    (clears : i.clears = true) : frame.stack = [] := by
  obtain ⟨a, known, describes, -⟩ := h.here
  obtain ⟨_, fine, same⟩ := bears.fine _ _ hi
  obtain rfl := same a known
  exact List.length_eq_zero_iff.mp (describes.length.trans (by rw [fine.clears clears]; rfl))

namespace Leveled

/-- The instruction finds the values that it takes, and the stack is not too deep. -/
theorem allows (h : body.Leveled most front frame) (surveyed : body.Surveyed (depths most) front) :
    ∃ i, body.code[frame.pc]? = some i ∧ i.pops ≤ frame.stack.length ∧
      frame.stack.length ≤ most := by
  obtain ⟨lt, d, known, same⟩ := h.here
  have same : frame.stack.length = d := same
  obtain ⟨pops, le⟩ := surveyed.allows _ _ d (Array.getElem?_eq_getElem lt) known
  exact ⟨_, Array.getElem?_eq_getElem lt, same ▸ pops, same ▸ le⟩

/-- On the way to a target nothing is on the stack. -/
theorem complete {handlers : List Nat} (empty : frame.stack = [])
    (pending : Leads (body.Welcomes (depths most) front · 0) frame)
    (goes : ∀ n ∈ t :: handlers, body.Welcomes (depths most) front n 0) :
    body.Leveled most front (Body.complete frame t handlers) := by
  obtain ⟨here, waits⟩ := pending.complete goes
  exact ⟨by rwa [stack_complete, empty], waits⟩

/-- **Every move** leads to a frame whose stack is as deep as is noted. -/
theorem move (surveyed : body.Surveyed (depths most) front)
    (handlers : ∀ region ∈ body.regions,
      body.Welcomes (depths most) front region.handlerStart region.kind.given)
    (h : body.Leveled most front frame)
    (empty : ∀ i, body.code[frame.pc]? = some i → i.clears = true → frame.stack = [])
    (m : body.Move frame after) : body.Leveled most front after := by
  obtain ⟨-, d, known, same⟩ := h.here
  have same : frame.stack.length = d := same
  subst same
  -- An instruction leaves the stack as deep as it says. On the way to a handler or out of one
  -- nothing is on it, but for the value that a `catch` takes.
  cases m with
  | @next i put hi transfer hpc hpending puts hstack =>
    refine ⟨?_, fun t remaining mem => h.pending t remaining (hpending ▸ mem)⟩
    have length : after.stack.length = (depths most).after i frame.stack.length := by
      rw [hstack, List.length_append, List.length_drop, puts.length, Nat.add_comm]
      rfl
    rw [hpc, length]
    exact surveyed.next _ _ _ hi known transfer
  | @jump i t hi target ne hpc hpending hstack =>
    refine ⟨?_, fun t remaining mem => h.pending t remaining (hpending ▸ mem)⟩
    have length : after.stack.length = (depths most).after i frame.stack.length := by
      rw [hstack, List.length_drop]
      show _ = frame.stack.length - i.pops + i.pushes
      rw [← (Instruction.puts_of_target target).length]
      rfl
    rw [hpc, length]
    exact surveyed.target _ _ _ t hi known target
  | @leave t hi hafter =>
    rw [hafter]
    refine .complete rfl h.pending fun n mem => ?_
    obtain rfl | mem := List.mem_cons.mp mem
    · have goes := surveyed.target _ _ _ _ hi known rfl
      rwa [empty _ hi rfl] at goes
    · obtain ⟨region, there, rfl⟩ := List.mem_map.mp mem
      obtain ⟨there, crossed⟩ := List.mem_filter.mp there
      have given : region.kind.given = 0 := by
        cases kind : region.kind with
        | «catch» => simp [Region.isFinally, kind] at crossed
        | «finally» => rfl
      exact given ▸ handlers region there
  | @ends t remaining rest hi hpending hafter =>
    rw [hafter]
    refine .complete (empty _ hi rfl) (fun t' remaining' mem => ?_) ?_
    · exact h.pending t' remaining' (hpending ▸ List.mem_cons_of_mem _ mem)
    · exact h.pending t remaining (hpending ▸ List.mem_cons_self)
  | @raised thrown region value hpending mem protects hafter =>
    rw [hafter]
    refine ⟨?_, (h.pending.waiting hpending).enterHandler⟩
    have begins := handlers region mem
    unfold enterHandler
    cases kind : region.kind with
    | «catch» | «finally» =>
      rw [kind] at begins
      exact begins

end Leveled

/-- **The stack of every frame of every run** is as deep as is noted. -/
theorem Runs.leveled (bears : body.Bears table item shapes)
    (surveyed : body.Surveyed (depths most) front) (start : body.Welcomes (depths most) front 0 0)
    (handlers : ∀ region ∈ body.regions,
      body.Welcomes (depths most) front region.handlerStart region.kind.given)
    (h : body.Runs (frame :: history)) : body.Leveled most front frame := by
  induction history generalizing frame with
  | nil =>
    cases h
    exact ⟨start, nofun⟩
  | cons before history ih =>
    cases h with
    | goes h hgoes =>
      exact (ih h).move surveyed handlers (fun i hi => (h.tracked bears).stack_eq_nil bears hi)
        hgoes.move

end Body

/-! ## Runs of routines -/

section Routines

variable {steps : List BuildStep} {table : Table} {settings : Settings} {routine : Routine}
  {file : String} {site : Option String} {n : SiteId} {body : Body}

/-- The check of the receiver is code in one piece. -/
theorem emits_receiverCheck {env : BodyEnv} : Emits 0 (receiverCheck env routine) := by
  unfold receiverCheck
  split
  · refine careful_loadThis.emits.bind (k := -1) (fun _ => ?_) rfl
    refine Emits.bind (j := 0) (k := -1) (emits_emit rfl rfl rfl) (fun _ => ?_) rfl
    refine Emits.bind (j := 0) (k := -1) (emits_emit rfl rfl rfl) (fun _ => ?_) rfl
    exact emits_emit rfl rfl rfl
  · exact emits_pure

/-- **The enumerators of a routine** that compiles: wherever they are asked for they are there, if
every loop is advanced behind its start only. -/
theorem exists_grips_of_compileRoutine (hg : Graph.build steps = .ok routine.graph)
    (h : (compileRoutine table settings routine file site n).1 = .ok body) :
    ∃ final front, body.Grips final routine.graph.EntersLoops front := by
  obtain ⟨draft, layout, checks, laid, rfl⟩ := exists_layout_of_compileRoutine h
  obtain ⟨s, ends, finished, -, regions⟩ := ends_of_layOut laid
  have straight := (emits_receiverCheck.grows Slots.sound_empty checks).scribes
  obtain ⟨fault, -, -, locals⟩ := Assembler.finish_cases finished
  obtain ⟨ready, sound, starts⟩ := begins_start straight.evolves
  obtain ⟨survey, entry, grips⟩ :=
    exists_grips_of_ends_placeAll (Graph.built_of_build hg) straight ends fault
  have code : (routine.bodyOf file site layout).code = layout.assembled.code := rfl
  obtain ⟨surveyed, entries⟩ := Body.surveyed_of_finish grips.surveyed
    (unreachable_of_ends_placeAll ready sound starts ends) finished code
  refine ⟨s.asm.slots, survey.front, locals, surveyed, entries _ _ entry, fun region mem => ?_⟩
  have mem : region ∈ s.regions := Array.mem_toList_iff.mp (regions ▸ mem)
  obtain ⟨-, slots, entry, keeps⟩ := grips.regions region mem
  refine ⟨slots, entries _ _ entry, fun n g protects known id got => ?_⟩
  simp only [Region.protects, Bool.and_eq_true, decide_eq_true_eq] at protects
  exact keeps n g protects.1 protects.2 known id got

/-- **The body of a routine that compiles does not go wrong**, in whatever run: its stack is never
deeper than is declared, no instruction is about a slot that is not there, and no frame has a fault,
but that something else is asked than an enumerator. It has not even that if every loop is advanced
behind its start only. -/
theorem faultless_of_compileRoutine (hg : Graph.build steps = .ok routine.graph)
    (h : (compileRoutine table settings routine file site n).1 = .ok body) :
    ∀ frame history, body.Runs (frame :: history) →
      frame.stack.length ≤ body.maxStack ∧
      frame.locals.size = body.locals.size ∧
      (∀ i id, body.code[frame.pc]? = some i → i.local? = some id → id < body.locals.size) ∧
      (∀ fault, body.step frame = .failed (.ofFault fault) → fault = .notAnEnumerator) ∧
      (routine.graph.EntersLoops → ∀ fault, body.step frame ≠ .failed (.ofFault fault)) := by
  intro frame history runs
  obtain ⟨shapes, bears⟩ : ∃ shapes, body.Bears table (.routine routine file site) shapes :=
    WorkItem.exists_bears_of_compileRoutine h
  obtain ⟨depth, leveled, start, handlers⟩ := exists_depths_of_compileRoutine hg h
  obtain ⟨final, front, grips⟩ := exists_grips_of_compileRoutine hg h
  obtain ⟨i, hi, pops, deep⟩ := (runs.leveled bears leveled start handlers).allows leveled
  have gripped := runs.gripped grips
  obtain ⟨g, known, describes⟩ := gripped.here
  have allows := grips.surveyed.allows _ i g hi known
  have size : final.size = body.locals.size := by rw [grips.locals, Slots.size]
  -- The grips have room for the slots that are accessed, and the body has as many as they.
  have there : ∀ id, i.local? = some id → id < body.locals.size := by
    intro id slot
    rw [← size]
    cases i with
    | loadLocal =>
      cases slot
      exact allows
    | storeLocal =>
      cases slot
      exact allows.1
    | _ => cases slot
  obtain ⟨env, -, chart, plan⟩ := exists_plan_of_compileRoutine hg (Prod.ext h rfl)
  have plan := plan.orderly
  have waits : i = .endFinally → frame.pending ≠ [] := by
    rintro rfl
    obtain ⟨completion, rest, same⟩ := (runs.supplied plan).exists_completion plan hi
    rw [same]
    exact List.cons_ne_nil _ _
  -- A fault means that something lacks: a value, a slot or an enumerator. The first two are there,
  -- so it can only be the third, and that only where a loop is advanced in front of its start.
  have stumbles {fault : Fault} (failed : body.step frame = .failed (.ofFault fault)) :
      fault = .notAnEnumerator ∧ ¬ routine.graph.EntersLoops := by
    obtain few | ⟨id, slot, le⟩ | ⟨same, asks, none⟩ := Body.lacking_of_step hi waits failed
    · exact (Nat.not_lt.mpr pops few).elim
    · rw [gripped.size, size] at le
      exact (Nat.not_lt.mpr le (there id slot)).elim
    · refine ⟨same, fun enters => ?_⟩
      have owed : g.top := by
        obtain rfl | rfl | rfl := asks <;> exact allows enters
      obtain ⟨k, rest, stack, lt⟩ := describes.top owed
      exact Nat.not_lt.mpr (none k rest stack) lt
  refine ⟨deep, gripped.size.trans size, fun j id hj slot => ?_, fun fault failed =>
    (stumbles failed).1, fun enters fault failed => (stumbles failed).2 enters⟩
  obtain rfl := Option.some.inj (hi.symm.trans hj)
  exact there id slot

/-- A loop over an entry with a `finally` handler in its body. -/
def entriesInTry : List BuildStep := [
  .addBlocks 5,
  .connect 0 (.enumerate (.array [.item (.literal (.long 10))]) 2),
  .connect 2 (.advance 0 none "x" 3 1),
  .connect 3 (.tryCatch 4 [] (some 5) 6),
  .connect 4 (.jump 6),
  .connect 5 (.jump 6),
  .connect 6 (.jump 2)]

/-- Its run comes to the end of the handler. -/
theorem faultless_of_compileRoutine_entriesInTry :
    ∃ routine : Routine, Graph.build entriesInTry = .ok routine.graph ∧
      routine.graph.EntersLoops ∧
      ∃ body, (compileRoutine ⟨[], none⟩ (.ofPreset .release) routine "f" none 0).1 = .ok body ∧
        ∃ frame history, body.Runs (frame :: history) ∧
          body.code[frame.pc]? = some .endFinally ∧ frame.stack.length ≤ body.maxStack ∧
          ∀ fault, body.step frame ≠ .failed (.ofFault fault) := by
  have checked : ((Graph.build entriesInTry).toOption.bind fun graph =>
      (compileRoutine ⟨[], none⟩ (.ofPreset .release) ⟨"f", [], true, none, false, graph⟩ "f" none
        0).1.toOption.map fun body =>
          (decide (∀ edge ∈ graph.edges, ∀ loop ∈ edge.kind.loop?, ∀ origin ∈ graph.edges[loop]?,
              origin.source = Graph.start),
            (body.trace 11).head?.any fun frame => body.endsAt frame.pc)) =
      some (true, true) := by
    decide +kernel
  obtain ⟨graph, hg, checked⟩ := Option.bind_eq_some_iff.mp checked
  obtain ⟨body, compiles, checked⟩ := Option.map_eq_some_iff.mp checked
  obtain ⟨starts, ends⟩ := Prod.mk.inj checked
  let routine : Routine := ⟨"f", [], true, none, false, graph⟩
  have built : Graph.build entriesInTry = .ok routine.graph := ok_of_toOption hg
  have enters : routine.graph.EntersLoops := fun edge mem loop loops origin got =>
    of_decide_eq_true starts edge mem loop loops origin got ▸ Graph.dominates_start
  have ran := body.runs_trace 11
  cases traced : body.trace 11 with
  | nil =>
    rw [traced] at ends
    cases ends
  | cons frame history =>
    rw [traced] at ends ran
    obtain ⟨deep, -, -, -, faultless⟩ :=
      faultless_of_compileRoutine built (ok_of_toOption compiles) frame history ran
    exact ⟨routine, built, enters, body, ok_of_toOption compiles, frame, history, ran,
      Body.endsAt_iff.mp ends, deep, faultless enters⟩

end Routines

end StackScript
