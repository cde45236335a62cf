import StackScript.Proofs.Layout.Aims
import StackScript.Proofs.Layout.Record

/-!
# Charts of routines

Control falls out of no part of a `try`: from every offset that it may come to, a transfer stands
in front of the end of the part. So it falls into no handler either, for another part of the `try`
ends where the handler starts.

A routine that compiles has a chart of its code. The chart tells which scopes every instruction is
in, and from there where its branches may go.

## Main definitions

* `Chart.Entry`: the offsets that control may come to
* `Chart.Sealed`: control stays in front of the ends of parts
* `Chart.Drawn`: a chart that fits the code, with all its parts sealed
* `Chart.Plan`: the chart of a body

## Main results

* `Chart.Sealed.step`: every step keeps control in front of the ends of parts
* `exists_plan_of_compileRoutine`: every routine that compiles has a chart
* `Chart.Plan.jump`, `Chart.Plan.leave`: where branches go
-/

namespace StackScript

open Emit Arrange

/-! ## The ends of parts -/

namespace Chart

variable {env : LayoutEnv} {c c' : Chart} {m : Nat} {stage : Stage}

/-- Control may come to the offset from elsewhere: to the first instruction, to a label, or to the
start of a handler. -/
inductive Entry (c : Chart) : Nat → Prop where
  | first : Entry c 0
  | label {l m} : c.state.asm.PlacedAt l m → Entry c m
  | handler {stage kind} : stage ∈ c.opened → stage.part.handler = some kind →
      Entry c stage.start

/-- Control stays in front of the ends of parts. -/
structure Sealed (c : Chart) : Prop where
  held : ∀ m, c.Entry m → c.state.asm.Held m
  /-- Control comes to a part when its first block is placed. -/
  entered : ∀ stage ∈ c.opened, stage.part.seed ∈ c.state.placed → c.state.asm.Held stage.start
  stops : ∀ x ∈ c.closed, ∀ m, c.Entry m → m < x.2 → TransferIn c.state.asm.code m x.2
  nonempty : ∀ x ∈ c.closed, x.1.start < x.2
  /-- Inner parts end first. -/
  order : c.closed.Pairwise fun x y => x.2 ≤ y.2 ∧ ¬ x.1.path <:+ y.1.path

/-- The chart fits the code, and control stays in front of the ends of its parts. -/
structure Drawn (env : LayoutEnv) (c : Chart) : Prop where
  plotted : c.Plotted env
  sealed : c.Sealed

/-- Where control does not reach the end of the code, a transfer holds it. -/
theorem Held.transfer {asm : Assembler} (h : asm.Held m) (hr : asm.reachable = false) :
    TransferIn asm.code m asm.code.size := by
  refine h.held.resolve_left ?_
  rw [hr]
  exact Bool.false_ne_true

theorem sealed_start {draft : Draft} (h : Assembler.Evolves .empty draft.asm)
    (hf : draft.asm.fault = none) : (start draft).Sealed := by
  have grown := h.grown Assembler.sound_empty hf
  refine ⟨?_, fun stage hs => (by cases hs), fun x hx => (by cases hx),
    fun x hx => (by cases hx), .nil⟩
  intro m hm
  cases hm with
  | first => exact grown.held ⟨Nat.le_refl _, .inl rfl⟩
  | label ho =>
    obtain ho | ⟨-, ho⟩ := grown.placed ho
    · simp [Assembler.PlacedAt, Assembler.label, Assembler.empty] at ho
    · exact ho
  | handler hs => cases hs

/-! ## Steps -/

/-- A part that a step opens is a body, or a handler at the end of the code. -/
theorem Step.opened (h : Step env c c') (hs : stage ∈ c'.opened) :
    stage ∈ c.opened ∨ stage.part.seed ∉ c'.state.placed ∧ (stage.part.handler = none ∨
      stage.start = c.size ∧ c'.state.asm.pinned = c.size ∧ c'.state.asm.reachable = true) := by
  cases h with
  | skip | settle | «begin» | exit | stroke | finish => exact .inl hs
  | openBody _ hparts hseed =>
    rcases List.mem_cons.mp hs with rfl | hs
    · exact .inr ⟨hseed, .inl (Graph.handler_body hparts)⟩
    · exact .inl hs
  | turn _ _ _ _ _ _ hseed hhead =>
    rcases List.mem_cons.mp hs with rfl | hs
    · obtain ⟨-, -, reachable, -⟩ := hhead.effect
      exact .inr ⟨hseed, .inr ⟨rfl, hhead.pinned, reachable⟩⟩
    · exact .inl hs

/-- An offset that control may come to is not new, or is behind code that is kept. -/
theorem Entry.of_step (hm : c'.Entry m) (h : Step env c c')
    (grown : Assembler.Grown c.state.asm c'.state.asm) (hsound : c.state.asm.Sound) :
    c.Entry m ∨ c.pinned ≤ m ∧ c'.state.asm.Held m := by
  cases hm with
  | first => exact .inl .first
  | label ho => exact (grown.placed ho).imp_left .label
  | handler hs hk =>
    obtain hs | ⟨-, hbody | ⟨hstart, hpinned, hr⟩⟩ := h.opened hs
    · exact .inl (.handler hs hk)
    · rw [hk] at hbody
      cases hbody
    · rw [hstart]
      exact .inr ⟨hsound.pinned_le, Nat.le_of_eq hpinned.symm, .inl hr⟩

/-- The end of a part, which control does not reach. -/
theorem Sealed.close (h : c.Sealed) (hs : c.Staged env) (hr : c.state.asm.reachable = false)
    {level : Level} {rest : List Level} (hlevels : c.levels = level :: rest)
    (hq : c.state.queue = []) (hentry : ∀ m, c'.Entry m → m < c.size → c.Entry m)
    (hcode : ∀ n < c.size, c'.state.asm.code[n]? = c.state.asm.code[n]?) :
    (∀ m, c'.Entry m → m < c.size → TransferIn c'.state.asm.code m c.size) ∧
      level.stage.start < c.size := by
  have opened := hs.levels level (hlevels ▸ List.mem_cons_self)
  constructor
  · intro m hm hlt
    have transfer := Held.transfer (h.held m (hentry m hm hlt)) hr
    exact transfer.mono (Nat.le_refl _) hcode
  · have held := h.entered level.stage opened (hs.seed_placed (hs.ne_head hq) opened)
    obtain ⟨n, -, hstart, hstop, -⟩ := Held.transfer held hr
    exact Nat.lt_of_le_of_lt hstart hstop

/-- **A step keeps the parts sealed.** -/
theorem Sealed.step (h : c.Sealed) (hp : c.Plotted env) (hp' : c'.Plotted env)
    (hstep : Step env c c') (hf : c'.state.asm.fault = none) : c'.Sealed := by
  have grown := (hstep.evolves hp.ready).1.grown hp.sound hf
  have held (m : Nat) (hm : c'.Entry m) : c'.state.asm.Held m := by
    obtain hm | ⟨-, hm⟩ := hm.of_step hstep grown hp.sound
    · exact grown.held (h.held m hm)
    · exact hm
  -- In front of the end of a part nothing changes.
  have old (x : Stage × Nat) (hx : x ∈ c.closed) (m : Nat) (hm : c'.Entry m) (hlt : m < x.2) :
      TransferIn c'.state.asm.code m x.2 := by
    have kept := hp.mapped.stops x hx
    obtain hm | ⟨hle, -⟩ := hm.of_step hstep grown hp.sound
    · exact (h.stops x hx m hm hlt).mono (Nat.le_refl _)
        fun n hn => grown.code n (Nat.lt_of_lt_of_le hn kept)
    · exact (Nat.lt_irrefl _ (Nat.lt_of_lt_of_le hlt (Nat.le_trans kept hle))).elim
  -- Nor does it where no block starts.
  have entered (hplaced : c'.state.placed = c.state.placed) (stage : Stage)
      (hs : stage ∈ c'.opened) (hseed : stage.part.seed ∈ c'.state.placed) :
      c'.state.asm.Held stage.start := by
    obtain hs | ⟨hnew, -⟩ := hstep.opened hs
    · exact grown.held (h.entered stage hs (hplaced ▸ hseed))
    · exact (hnew hseed).elim
  have begun (hr : c'.state.asm.reachable = true) (stage : Stage) (hs : stage ∈ c'.opened)
      (_ : stage.part.seed ∈ c'.state.placed) : c'.state.asm.Held stage.start :=
    ⟨hp'.mapped.starts stage hs, .inl hr⟩
  have ended {level : Level} {rest : List Level} (hlevels : c.levels = level :: rest)
      (hclosed : c'.closed = c.closed ++ [(level.stage, c.size)])
      (hplaced : c'.state.placed = c.state.placed)
      (hnew : (∀ m, c'.Entry m → m < c.size → TransferIn c'.state.asm.code m c.size) ∧
        level.stage.start < c.size) : c'.Sealed := by
    have path : c.path = level.stage.path := by rw [Chart.path, hlevels]; rfl
    refine ⟨held, entered hplaced, fun x hx => ?_, fun x hx => ?_, ?_⟩
    · rw [hclosed] at hx
      rcases List.mem_append.mp hx with hx | hx
      · exact old x hx
      · rw [List.mem_singleton.mp hx]
        exact hnew.1
    · rw [hclosed] at hx
      rcases List.mem_append.mp hx with hx | hx
      · exact h.nonempty x hx
      · rw [List.mem_singleton.mp hx]
        exact hnew.2
    · rw [hclosed, List.pairwise_append]
      refine ⟨h.order, List.pairwise_singleton _ _, fun x hx y hy => ?_⟩
      rw [List.mem_singleton.mp hy, ← path]
      exact ⟨Nat.le_trans (hp.mapped.stops x hx) hp.sound.pinned_le, hp.mapped.left x hx⟩
  cases hstep with
  | skip | settle => exact ⟨held, entered rfl, old, h.nonempty, h.order⟩
  | @«begin» b rest =>
    obtain ⟨l, start⟩ := begun_beginBlock (s := { c.state with queue := rest }) hp.ready hp.sound hf
    exact ⟨held, begun start.reachable, old, h.nonempty, h.order⟩
  | exit =>
    obtain ⟨l, start⟩ := begun_beginBlock (s := { c.state with queue := c.state.queue }) hp.ready
      hp.sound hf
    exact ⟨held, begun start.reachable, old, h.nonempty, h.order⟩
  | stroke _ hstroke =>
    obtain ⟨placed, -⟩ := hstroke.frame
    exact ⟨held, entered placed, old, h.nonempty, h.order⟩
  | openBody => exact ⟨held, entered rfl, old, h.nonempty, h.order⟩
  | @turn level rest part todo kind asm nextSite hidle hlevels htodo hpart hq hr hseed hhead =>
    obtain ⟨-, labels, -, code⟩ := hhead.effect
    refine ended hlevels rfl rfl (h.close hp.staged hr hlevels hq ?_ ?_)
    · intro m hm hlt
      cases hm with
      | first => exact .first
      | @label l _ ho =>
        have ho : asm.PlacedAt l m := ho
        rw [Assembler.PlacedAt, Assembler.label, labels] at ho
        exact .label ho
      | handler hs hk =>
        rcases List.mem_cons.mp hs with rfl | hs
        · exact (Nat.lt_irrefl _ hlt).elim
        · exact .handler hs hk
    · intro n hn
      show asm.code[n]? = _
      obtain code | ⟨head, -, code⟩ := code
      · rw [code]
      · rw [code, Array.getElem?_push_lt hn, Array.getElem?_eq_getElem hn]
  | @finish level rest queue escapes exitTargeted hidle hlevels htodo hq hr =>
    refine ended hlevels rfl rfl (h.close hp.staged hr hlevels hq ?_ fun _ _ => rfl)
    intro m hm _
    cases hm with
    | first => exact .first
    | label ho => exact .label ho
    | handler hs hk => exact .handler hs hk

end Chart

/-! ## Bodies -/

/-- The chart of a body. -/
structure Chart.Plan (env : LayoutEnv) (body : Body) (c : Chart) : Prop where
  plotted : c.Plotted env
  aimed : c.Aimed env
  sealed : c.Sealed
  laid : c.state.Laid env.graph
  levels : c.levels = []
  unreachable : c.state.asm.reachable = false
  closed : ∀ stage ∈ c.opened, ∃ stop, (stage, stop) ∈ c.closed
  finish : ∃ out max, c.state.asm.finish max = .ok out ∧ out.code = body.code
  offsets : body.blockOffsets = c.state.blockOffsets.toList
  regions : body.regions = c.state.regions.toList

/-! ## Routines -/

section Routines

variable {bodyEnv : BodyEnv} {routine : Routine} {n : SiteId} {u : Unit} {draft : Draft}
    {body : Body} {steps : List BuildStep}

/-- The check of the receiver is straight code. -/
theorem plain_of_ends_receiverCheck
    (h : Ends (receiverCheck bodyEnv routine) (.start n) u draft) :
    Assembler.Evolves .empty draft.asm ∧ ∀ i ∈ draft.asm.code, i.isPlain = true := by
  unfold receiverCheck at h
  split at h
  case isFalse =>
    obtain ⟨-, rfl⟩ := ends_pure.mp h
    exact ⟨.refl _, fun i hi => (by cases Array.mem_toList_iff.mpr hi)⟩
  case isTrue =>
    unfold loadThis at h
    simp only [ends_bind, ends_emit] at h
    obtain ⟨_, d, hthis, _, _, rfl, _, _, rfl, rfl⟩ := h
    split at hthis
    · exact (not_ends_throw hthis).elim
    · obtain rfl := ends_emit.mp hthis
      constructor
      · exact (((Assembler.Evolves.single (.emit rfl)).tail (.emit rfl)).tail (.emit rfl)).tail
          (.emit rfl)
      · intro i hi
        simp only [Assembler.code_emit, Array.mem_push, Draft.start, Assembler.empty,
          Array.not_mem_empty, false_or] at hi
        rcases hi with ((rfl | rfl) | rfl) | rfl <;> rfl

/-- **A routine that compiles has a chart.** -/
theorem exists_plan_of_compileRoutine {table : Table} {settings : Settings} {file : String}
    {site : Option String} {nextSite next : SiteId} (hg : Graph.build steps = .ok routine.graph)
    (h : compileRoutine table settings routine file site nextSite = (.ok body, next)) :
    ∃ env : LayoutEnv, env.graph = routine.graph ∧ ∃ c : Chart, c.Plan env body := by
  unfold compileRoutine at h
  dsimp only at h
  split at h
  case h_1 checked draft hcheck =>
  split at h
  case h_1 => cases h
  case h_2 =>
    obtain ⟨evolves, plain⟩ := plain_of_ends_receiverCheck hcheck
    cases hlay : (layOut _ routine.graph draft).1 with
    | error cause =>
      rw [hlay] at h
      cases h
    | ok layout =>
      rw [hlay] at h
      cases h
      obtain ⟨c, final⟩ := Chart.final_of_layOut (Graph.built_of_build hg) evolves hlay
      obtain ⟨plotted, -⟩ := final.recorded
      have fault : draft.asm.fault = none :=
        (final.steps.evolves Chart.ready_start).1.fault final.fault
      -- The three invariants go along one run, for each step of one needs what the others say about
      -- the chart before it.
      obtain ⟨-, -, aimed, «sealed»⟩ := final.steps.plotted
        (I := fun c => c.Leaves ∧ c.Aimed _ ∧ c.Sealed) evolves final.fault
        (fun sound => ⟨Chart.leaves_start, Chart.aimed_start sound plain,
          Chart.sealed_start evolves fault⟩)
        fun hstep hp hp' hf ⟨leaves, aimed, hsealed⟩ =>
          ⟨leaves.step hp.staged hstep, aimed.step hp leaves hstep hf,
            hsealed.step hp hp' hstep hf⟩
      exact ⟨_, rfl, c, plotted, aimed, «sealed», final.complete.laid, final.levels,
        final.complete.unreachable, fun _ hs => final.closed hs, ⟨_, _, final.finish, rfl⟩,
        final.offsets, final.regions⟩

/-- The body of a routine without parameters that has a graph. -/
def compileGraph (steps : List BuildStep) : Option Body :=
  (Graph.build steps).toOption.bind fun graph =>
    (compileRoutine ⟨[], none⟩ (.ofPreset .release) ⟨"f", [], true, none, false, graph⟩ "f" none
      0).1.toOption

/-- Such a body is that of a routine. -/
theorem exists_routine_of_compileGraph (h : compileGraph steps = some body) :
    ∃ routine : Routine, Graph.build steps = .ok routine.graph ∧ ∃ next,
      compileRoutine ⟨[], none⟩ (.ofPreset .release) routine "f" none 0 = (.ok body, next) := by
  obtain ⟨graph, hg, h⟩ := Option.bind_eq_some_iff.mp h
  cases hbuild : Graph.build steps with
  | error =>
    rw [hbuild] at hg
    cases hg
  | ok =>
    rw [hbuild] at hg
    cases hg
    refine ⟨⟨"f", [], true, none, false, graph⟩, rfl, ?_⟩
    rcases hc : compileRoutine _ _ _ _ _ _ with ⟨result, next⟩
    rw [hc] at h
    cases result with
    | error => cases h
    | ok =>
      cases h
      exact ⟨next, rfl⟩

end Routines

/-- An instruction with a target is a branch. -/
theorem Instruction.exists_kind {i : Instruction} {t : Nat} (h : i.target? = some t) :
    ∃ kind : BranchKind, i = kind.instruction t := by
  cases i with
  | jump => exact ⟨.always, congrArg _ (Option.some.inj h)⟩
  | jumpIfTrue => exact ⟨.ifTrue, congrArg _ (Option.some.inj h)⟩
  | jumpIfFalse => exact ⟨.ifFalse, congrArg _ (Option.some.inj h)⟩
  | leave => exact ⟨.leave, congrArg _ (Option.some.inj h)⟩
  | _ => cases h

namespace Chart.Plan

variable {env : LayoutEnv} {body : Body} {c : Chart} {kind : BranchKind} {n t : Nat}

theorem drawn (h : c.Plan env body) : c.Drawn env := ⟨h.plotted, h.sealed⟩

/-! ## Where branches go -/

/-- No target waits outside all scopes to be placed. -/
theorem not_left (h : c.Plan env body) {outer : Path} {b : BlockId} : ¬ c.Left outer b := by
  rintro (⟨hpath, -⟩ | ⟨hlevel, -⟩ | ⟨hlevel, -⟩)
  · rw [Chart.path, h.levels] at hpath
    cases hpath
  · rw [h.levels] at hlevel
    cases hlevel
  · rw [h.levels] at hlevel
    cases hlevel

/-- Control that goes to the label of a block goes to where the block is. -/
theorem exists_placement (h : c.Plan env body) {b : BlockId} {l : Label}
    (hb : c.state.labels.lookup b = some l) (ht : c.state.asm.PlacedAt l t) :
    ∃ x ∈ c.placements, x.block = b ∧ Enters c.opened t x.path (c.cells t).path ∧
      (b = Graph.exit → (b, t) ∈ body.blockOffsets) := by
  obtain ⟨x, hx, rfl, lands⟩ := h.aimed.blocks hb ht
  refine ⟨x, hx, rfl, lands.of_lt (lands.lt h.unreachable), fun _ => ?_⟩
  have listed : x.block ∈ c.state.blockOffsets.toList.map (·.1) := by
    rw [h.laid.blocks, List.mem_reverse, h.plotted.staged.placed]
    exact List.mem_map_of_mem hx
  obtain ⟨⟨b, o⟩, hmem, hbx⟩ := List.mem_map.mp listed
  obtain ⟨k, hk, ho⟩ := h.laid.places b o hmem
  obtain rfl : b = x.block := hbx
  rw [hb] at hk
  cases hk
  rw [h.offsets, ht.unique ho]
  exact hmem

/-- A branch of the body, as it was written. -/
theorem exists_branch (h : c.Plan env body) (hi : body.code[n]? = some (kind.instruction t)) :
    n < c.size ∧ t < c.size ∧ ∃ l, c.state.asm.Awaits n l ∧ c.state.asm.PlacedAt l t ∧
      c.state.asm.code[n]? = some (kind.instruction 0) := by
  obtain ⟨out, max, hfinish, hcode⟩ := h.finish
  rw [← hcode] at hi
  have target : (kind.instruction t).target? = some t := by cases kind <;> rfl
  obtain ⟨l, kind', hw, ho, hn, heq⟩ := Assembler.finish_branch h.plotted.sound hfinish hi target
  obtain rfl := BranchKind.instruction_inj heq
  obtain ⟨-, hlt | ⟨-, hend⟩⟩ := h.plotted.sound.placed ho
  · exact ⟨h.plotted.sound.lt hw, hlt, l, hw, ho, hn⟩
  · rw [h.unreachable] at hend
    cases hend

/-- **A jump stays in its scopes**, apart from bodies that start where it goes. -/
theorem jump (h : c.Plan env body) (hi : body.code[n]? = some (kind.instruction t))
    (hk : kind ≠ .leave) : Enters c.opened t (c.cells n).path (c.cells t).path := by
  obtain ⟨hn, ht, l, hw, ho, hcode⟩ := h.exists_branch hi
  have staged := h.plotted.staged
  by_cases hblock : ∃ b, c.state.labels.lookup b = some l
  · obtain ⟨b, hb⟩ := hblock
    obtain ⟨x, hx, rfl, enters, -⟩ := h.exists_placement hb ho
    have aims := h.aimed.jumps hw hcode hb
    unfold Aims at aims
    rw [if_neg hk] at aims
    obtain ⟨hne, hrange⟩ | ⟨hexit, hpath⟩ := aims
    · rw [staged.known_unique (h.plotted.mapped.known n hn) (staged.known x hx)
        (hrange.symm.trans (staged.ranges x hx hne))]
      exact enters
    · rw [hpath, ← staged.exit x hx hexit]
      exact enters
  · -- A label inside a block.
    obtain ⟨-, lands, -⟩ := h.aimed.skips hw hcode fun b hb => hblock ⟨b, hb⟩
    exact (lands t ho).of_lt ht

/-- **A `leave` goes out** of bodies and `catch` handlers, or to the exit. -/
theorem leave (h : c.Plan env body) (hi : body.code[n]? = some (.leave t)) :
    ∃ dropped outer, (c.cells n).path = dropped ++ outer ∧
      Enters c.opened t outer (c.cells t).path ∧
      ((∀ tag ∈ dropped, tag.scope.isLeft = true) ∨
        outer = [] ∧ (Graph.exit, t) ∈ body.blockOffsets) := by
  have hi : body.code[n]? = some (BranchKind.leave.instruction t) := hi
  obtain ⟨hn, ht, l, hw, ho, hcode⟩ := h.exists_branch hi
  have staged := h.plotted.staged
  by_cases hblock : ∃ b, c.state.labels.lookup b = some l
  · obtain ⟨b, hb⟩ := hblock
    obtain ⟨x, hx, rfl, enters, listed⟩ := h.exists_placement hb ho
    have aims := h.aimed.jumps hw hcode hb
    unfold Aims at aims
    rw [if_pos rfl] at aims
    cases aims with
    | exit hexit =>
      refine ⟨(c.cells n).path, [], by simp, ?_, .inr ⟨rfl, ?_⟩⟩
      · rw [← staged.exit x hx hexit]
        exact enters
      · rw [← hexit]
        exact listed hexit
    | @out dropped outer _ hall hpath hout =>
      obtain ⟨hne, hrange⟩ | hleft := hout
      · have known : c.Known outer := staged.known_suffix (h.plotted.mapped.known n hn)
          ⟨dropped, hpath.symm⟩
        have around : x.path = outer := staged.known_unique (staged.known x hx) known
          ((staged.ranges x hx hne).symm.trans hrange)
        exact ⟨dropped, outer, hpath, around ▸ enters, .inl hall⟩
      · exact (h.not_left hleft).elim
  · obtain ⟨hk, -⟩ := h.aimed.skips hw hcode fun b hb => hblock ⟨b, hb⟩
    exact (hk rfl).elim

/-- The end of a `finally` handler stands in the scope of the handler. -/
theorem exists_stage_of_endFinally (h : c.Plan env body)
    (hi : body.code[n]? = some .endFinally) :
    n < c.size ∧ ∃ stage ∈ c.opened, stage.part.handler = some .finally ∧
      stage.path = (c.cells n).path := by
  obtain ⟨out, max, hfinish, hcode⟩ := h.finish
  rw [← hcode] at hi
  have hi := Assembler.finish_instruction h.plotted.sound hfinish hi rfl
  have hn : n < c.size := (Array.getElem?_eq_some_iff.mp hi).1
  obtain ⟨next, hkind⟩ := h.aimed.ends hi
  refine ⟨hn, ?_⟩
  obtain hnil | ⟨stage, hs, hpath⟩ := h.plotted.mapped.known n hn
  · rw [hnil] at hkind
    cases hkind
  · rw [← hpath] at hkind
    have hkind : stage.part.kind = .finally next := hkind
    refine ⟨stage, hs, ?_, hpath⟩
    obtain ⟨hk, -⟩ | ⟨hk, -⟩ | ⟨_, -, handler⟩ := Graph.mem_parts (h.plotted.staged.mem_parts hs)
    · rw [hkind] at hk
      cases hk
    · rw [hkind] at hk
      cases hk
    · exact handler

/-! ## Regions -/

section Regions

variable {region : Region} {stage : Stage} {stop : Nat}

/-- A region is that of a handler that has been laid out. -/
theorem exists_stage (h : c.Plan env body) (hr : region ∈ body.regions) :
    ∃ stage stop, (stage, stop) ∈ c.closed ∧ stage.region? stop = some region := by
  rw [h.regions, h.plotted.framed.mem_regions] at hr
  obtain ⟨x, hx, hr⟩ := hr
  exact ⟨x.1, x.2, hx, hr⟩

theorem mem_regions (h : c.Plan env body) (hx : (stage, stop) ∈ c.closed)
    (hr : stage.region? stop = some region) : region ∈ body.regions := by
  rw [h.regions]
  exact h.plotted.framed.mem_regions.mpr ⟨_, hx, hr⟩

end Regions

end Chart.Plan

end StackScript
