import StackScript.Proofs.Layout.Cells

/-!
# Regions in the code

The parts of a `try` follow one another without a gap. So an instruction is protected by a region
exactly if it belongs to one of the parts that the handler of the region protects, and stands in
the handler exactly if it belongs to that.

## Main definitions

* `Contiguous`: parts that follow one another
* `Stage.guarded`: the parts that a handler protects
* `Chart.Framed`: the regions are those of the handlers that have been laid out
* `Chart.Plotted`: the chart fits the code

## Main results

* `Chart.Steps.plotted`: in every layout without a fault the chart fits the code
* `Chart.Mapped.inHandler_iff`, `Chart.Framed.protects_iff`: what belongs to a region
-/

namespace StackScript

variable {graph : Graph} {part : Part}

/-! ## Parts of a `try` -/

theorem mem_catchParts {past : BlockId} {clauses : List CatchClause}
    (h : part ∈ catchParts past clauses) :
    part.kind = .catch ∧ ∃ type, part.handler = some (.catch type) := by
  induction clauses with
  | nil => cases h
  | cons clause rest ih =>
    rcases List.mem_cons.mp h with rfl | h
    · exact ⟨rfl, _, rfl⟩
    · exact ih h

theorem mem_finallyParts {next : BlockId} {handler : Option BlockId}
    (h : part ∈ finallyParts next handler) :
    part.kind = .finally next ∧ part.handler = some .finally := by
  cases handler with
  | none => cases h
  | some handler =>
    rw [List.mem_singleton.mp h]
    exact ⟨rfl, rfl⟩

/-- The body of a `try` comes first, and all other parts are handlers. -/
theorem EdgeKind.parts_cases (kind : EdgeKind) :
    kind.parts = [] ∨ ∃ body rest, kind.parts = body :: rest ∧ body.kind = .body ∧
      body.handler = none ∧ ∀ part ∈ rest,
        (part.kind = .catch ∧ ∃ type, part.handler = some (.catch type)) ∨
          ∃ next, part.kind = .finally next ∧ part.handler = some .finally := by
  cases kind with
  | tryCatch body catches finally? next =>
    refine .inr ⟨_, _, rfl, rfl, rfl, fun part hp => ?_⟩
    rcases List.mem_append.mp hp with hp | hp
    · exact .inl (mem_catchParts hp)
    · exact .inr ⟨next, mem_finallyParts hp⟩
  | jump | branch | enumerate | advance | switch => exact .inl rfl

/-- A `finally` handler is the last part of its `try`. -/
theorem EdgeKind.finally_last {kind : EdgeKind} {front back : List Part}
    (h : kind.parts = front ++ part :: back) (hf : part.handler = some .finally) : back = [] := by
  cases kind with
  | tryCatch body catches finally? next =>
    have others (other : Part)
        (ho : other ∈ bodyPart body catches (finally?.getD next) ::
          catchParts (finally?.getD next) catches) : other.handler ≠ some .finally := by
      rcases List.mem_cons.mp ho with rfl | ho
      · exact fun he => by cases he
      · obtain ⟨-, type, handler⟩ := mem_catchParts ho
        rw [handler]
        exact fun he => by cases he
    have last : (finallyParts next finally?).length ≤ 1 := by
      cases finally? with
      | none => exact Nat.zero_le _
      | some => exact Nat.le_refl _
    rw [EdgeKind.parts, ← List.cons_append] at h
    obtain ⟨behind, -, hbehind⟩ | ⟨behind, hfront, hbehind⟩ := List.append_eq_append_iff.mp h
    · rw [hbehind, List.length_append, List.length_cons] at last
      exact List.length_eq_zero_iff.mp (by omega)
    · cases behind with
      | nil =>
        rw [List.nil_append] at hbehind
        rw [← hbehind, List.length_cons] at last
        exact List.length_eq_zero_iff.mp (by omega)
      | cons other behind =>
        obtain ⟨rfl, -⟩ := List.cons.inj hbehind
        exact (others part (hfront ▸ List.mem_append_right _ List.mem_cons_self) hf).elim
  | jump | branch | enumerate | advance | switch => cases front <;> cases h

theorem Graph.parts_cases (graph : Graph) (b : BlockId) :
    graph.parts b = [] ∨ ∃ body rest, graph.parts b = body :: rest ∧ body.kind = .body ∧
      body.handler = none ∧ ∀ part ∈ rest,
        (part.kind = .catch ∧ ∃ type, part.handler = some (.catch type)) ∨
          ∃ next, part.kind = .finally next ∧ part.handler = some .finally := by
  unfold Graph.parts
  cases graph.outgoing? b with
  | none => exact .inl rfl
  | some edge => exact edge.kind.parts_cases

/-- The first part of a `try` is its body. -/
theorem Graph.handler_body {b : BlockId} {body : Part} {rest : List Part}
    (h : graph.parts b = body :: rest) : body.handler = none := by
  obtain hnil | ⟨body', rest', hparts, -, hbody, -⟩ := graph.parts_cases b
  · rw [h] at hnil
    cases hnil
  · rw [h] at hparts
    obtain ⟨rfl, -⟩ := List.cons.inj hparts
    exact hbody

/-- A part of a `try` is the body or a handler of the kind that its scope has. -/
theorem Graph.mem_parts {b : BlockId} (h : part ∈ graph.parts b) :
    part.kind = .body ∧ part.handler = none ∨
      (part.kind = .catch ∧ ∃ type, part.handler = some (.catch type)) ∨
        ∃ next, part.kind = .finally next ∧ part.handler = some .finally := by
  obtain hnil | ⟨body, rest, hparts, hkind, hbody, hrest⟩ := graph.parts_cases b
  · rw [hnil] at h
    cases h
  · rw [hparts] at h
    rcases List.mem_cons.mp h with rfl | h
    · exact .inl ⟨hkind, hbody⟩
    · exact .inr (hrest part h)

/-- A part that is a `finally` handler has the scope of one. -/
theorem Graph.kind_of_finally {b : BlockId} (h : part ∈ graph.parts b)
    (hf : part.handler = some .finally) : ∃ next, part.kind = .finally next := by
  obtain ⟨-, hk⟩ | ⟨-, type, hk⟩ | ⟨next, hkind, -⟩ := graph.mem_parts h
  · rw [hf] at hk
    cases hk
  · rw [hf] at hk
    cases hk
  · exact ⟨next, hkind⟩

/-! ## Stretches without gaps -/

/-- Each stretch starts where the one in front of it ends. -/
def Contiguous (start : Nat) : List Stretch → Nat → Prop
  | [], stop => start = stop
  | stretch :: rest, stop =>
    stretch.start = start ∧ stretch.start ≤ stretch.stop ∧ Contiguous stretch.stop rest stop

section Contiguous

variable {start stop stop' n : Nat} {stretches : List Stretch} {part : Part}

theorem Contiguous.le (h : Contiguous start stretches stop) : start ≤ stop := by
  induction stretches generalizing start with
  | nil => exact Nat.le_of_eq h
  | cons stretch rest ih =>
    obtain ⟨rfl, hle, h⟩ := h
    exact Nat.le_trans hle (ih h)

theorem Contiguous.append (h : Contiguous start stretches stop) (hle : stop ≤ stop') :
    Contiguous start (stretches ++ [⟨part, stop, stop'⟩]) stop' := by
  induction stretches generalizing start with
  | nil => exact ⟨Eq.symm h, hle, rfl⟩
  | cons stretch rest ih =>
    obtain ⟨rfl, hle', h⟩ := h
    exact ⟨rfl, hle', ih h⟩

/-- Stretches without a gap cover all that is between their ends. -/
theorem Contiguous.cover (h : Contiguous start stretches stop) :
    (∃ stretch ∈ stretches, stretch.start ≤ n ∧ n < stretch.stop) ↔ start ≤ n ∧ n < stop := by
  induction stretches generalizing start with
  | nil =>
    have : start = stop := h
    simp only [List.not_mem_nil, false_and, exists_false, false_iff]
    omega
  | cons stretch rest ih =>
    obtain ⟨rfl, hle, h⟩ := h
    have := h.le
    simp only [List.mem_cons, exists_eq_or_imp, ih h]
    omega

end Contiguous

/-! ## Regions -/

namespace Stage

variable {stage : Stage}

/-- The scopes around another part of the same `try`. -/
def sibling (stage : Stage) (part : Part) : Path := ⟨stage.source, part.scope⟩ :: stage.outer

/-- The parts that a handler protects. -/
def guarded (stage : Stage) : List Stretch :=
  match stage.part.handler with
  | some (.catch _) => stage.done.take 1
  | some .finally => stage.done
  | none => []

theorem mem_done_of_mem_guarded {stretch : Stretch} (h : stretch ∈ stage.guarded) :
    stretch ∈ stage.done := by
  unfold guarded at h
  split at h
  · exact List.mem_of_mem_take h
  · exact h
  · cases h

/-- The region of a handler, if there is one. -/
theorem region?_eq_some {stop : Nat} {region : Region} (h : stage.region? stop = some region) :
    stage.part.handler = some region.kind ∧ region.handlerStart = stage.start ∧
      region.handlerEnd = stop ∧ ∃ body rest, stage.done = body :: rest ∧
        region.tryStart = body.start ∧
        region.tryEnd = region.kind.tryEnd body.stop stage.start := by
  unfold region? at h
  split at h
  case h_1 kind body rest hkind hdone =>
    cases h
    exact ⟨hkind, rfl, rfl, body, rest, hdone, rfl, rfl⟩
  case h_2 => cases h

end Stage

namespace Chart

/-- The parts of a `try` in front of a stage follow one another up to it, and are laid out. -/
structure Chained (c : Chart) (stage : Stage) : Prop where
  contiguous : ∃ start, Contiguous start stage.done stage.start
  closed : ∀ stretch ∈ stage.done, ∃ other, (other, stretch.stop) ∈ c.closed ∧
    other.part = stretch.part ∧ other.start = stretch.start ∧
    other.path = stage.sibling stretch.part

/-- The regions are those of the handlers that have been laid out. -/
structure Framed (c : Chart) : Prop where
  regions : c.state.regions.toList = c.closed.filterMap fun x => x.1.region? x.2
  chained : ∀ stage ∈ c.opened, c.Chained stage

variable {env : LayoutEnv} {c c' : Chart} {draft : Draft} {stage : Stage}

theorem Chained.mono (h : c.Chained stage) (hc : ∀ x ∈ c.closed, x ∈ c'.closed) :
    c'.Chained stage where
  contiguous := h.contiguous
  closed stretch hs := by
    obtain ⟨other, hm, rest⟩ := h.closed stretch hs
    exact ⟨other, hc _ hm, rest⟩

theorem Chained.nil {b : BlockId} {outer : Path} {part : Part} {start : Nat} :
    c.Chained ⟨b, outer, part, start, []⟩ where
  contiguous := ⟨start, rfl⟩
  closed stretch hs := by cases hs

/-- The next part of a `try`, behind one that has been laid out. -/
theorem Chained.next {stop : Nat} (h : c.Chained stage) (hle : stage.start ≤ stop)
    (hc : (stage, stop) ∈ c.closed) (part : Part) : c.Chained (stage.next stop part) where
  contiguous := by
    obtain ⟨start, hstart⟩ := h.contiguous
    exact ⟨start, hstart.append hle⟩
  closed stretch hs := by
    rcases List.mem_append.mp hs with hs | hs
    · exact h.closed stretch hs
    · rw [List.mem_singleton.mp hs]
      exact ⟨stage, hc, rfl, rfl, rfl⟩

theorem toList_regions_closeStage {s : LayoutState} :
    (s.closeStage stage).regions.toList =
      s.regions.toList ++ (stage.region? s.asm.offset).toList := by
  unfold LayoutState.closeStage
  cases stage.region? s.asm.offset with
  | some region => simp
  | none => simp

/-- The regions behind the end of a part. -/
theorem Framed.regions_close (h : c.Framed) (stage : Stage) :
    (c.state.closeStage stage).regions.toList =
      (c.closed ++ [(stage, c.state.asm.offset)]).filterMap fun x => x.1.region? x.2 := by
  rw [toList_regions_closeStage, h.regions, List.filterMap_append]
  congr 1

/-- The start of a block completes no region. -/
theorem regions_beginBlock (s : LayoutState) (b : BlockId) :
    (s.beginBlock b).regions = s.regions := by
  unfold LayoutState.beginBlock LayoutState.withLabel
  split <;> rfl

/-- **A step keeps the regions framed.** -/
theorem Framed.step (h : c.Framed) (hs : c.Staged env) (hm : c.Mapped)
    (hsound : c.state.asm.Sound) (hstep : Step env c c') : c'.Framed := by
  have bound : c.pinned ≤ c.size := hsound.pinned_le
  cases hstep with
  | skip | settle => exact ⟨h.regions, fun stage hst => (h.chained stage hst).mono fun _ => id⟩
  | «begin» | exit =>
    exact ⟨(congrArg Array.toList (regions_beginBlock _ _)).trans h.regions,
      fun stage hst => (h.chained stage hst).mono fun _ => id⟩
  | stroke _ hstroke =>
    obtain ⟨-, -, regions⟩ := hstroke.frame
    exact ⟨(congrArg Array.toList regions).trans h.regions,
      fun stage hst => (h.chained stage hst).mono fun _ => id⟩
  | openBody =>
    refine ⟨h.regions, fun stage hst => ?_⟩
    rcases List.mem_cons.mp hst with rfl | hst
    · exact .nil
    · exact (h.chained stage hst).mono fun _ => id
  | @turn level rest part todo kind asm nextSite hidle hlevels =>
    have opened := hs.levels level (hlevels ▸ List.mem_cons_self)
    have kept (stage : Stage) (hst : stage ∈ c.opened) :
        (c.turn level rest part todo ⟨asm, nextSite⟩).Chained stage :=
      (h.chained stage hst).mono fun _ hx => List.mem_append_left _ hx
    refine ⟨h.regions_close level.stage, fun stage hst => ?_⟩
    rcases List.mem_cons.mp hst with rfl | hst
    · exact (kept level.stage opened).next (Nat.le_trans (hm.starts _ opened) bound)
        (List.mem_append_right _ (List.mem_singleton.mpr rfl)) part
    · exact kept stage hst
  | @finish level rest =>
    exact ⟨h.regions_close level.stage,
      fun stage hst => (h.chained stage hst).mono fun _ hx => List.mem_append_left _ hx⟩

theorem framed_start : (start draft).Framed where
  regions := rfl
  chained stage h := by cases h

/-- The chart fits the code. -/
structure Plotted (env : LayoutEnv) (c : Chart) : Prop where
  ready : c.state.Ready
  sound : c.state.asm.Sound
  staged : c.Staged env
  mapped : c.Mapped
  framed : c.Framed

theorem Plotted.step (h : c.Plotted env) (hstep : Step env c c')
    (hf : c'.state.asm.fault = none) : c'.Plotted env := by
  obtain ⟨evolves, ready⟩ := hstep.evolves h.ready
  exact ⟨ready, evolves.sound h.sound hf, h.staged.step hstep,
    h.mapped.step h.staged h.sound hstep, h.framed.step h.staged h.mapped h.sound hstep⟩

theorem ready_start : (Chart.start draft).state.Ready := fun b l h => by cases h

theorem plotted_start (h : draft.asm.Sound) : (start draft).Plotted env :=
  ⟨ready_start, h, staged_start, .start, framed_start⟩

/-- What holds at the start, and is kept by every step from a chart that fits its code, holds of
every layout without a fault. -/
theorem Steps.plotted {I : Chart → Prop} (hdraft : Assembler.Evolves .empty draft.asm)
    (h : Steps env (Chart.start draft) c) (hf : c.state.asm.fault = none)
    (start : draft.asm.Sound → I (.start draft))
    (step : ∀ {a b : Chart}, Step env a b → a.Plotted env → b.Plotted env →
      b.state.asm.fault = none → I a → I b) :
    c.Plotted env ∧ I c := by
  have sound : draft.asm.Sound :=
    hdraft.sound Assembler.sound_empty ((h.evolves ready_start).1.fault hf)
  refine h.invariant (I := fun c => c.Plotted env ∧ I c) ready_start hf
    ⟨plotted_start sound, start sound⟩ fun hab _ hfault ⟨plotted, kept⟩ => ?_
  have plotted' := plotted.step hab hfault
  exact ⟨plotted', step hab plotted plotted' hfault kept⟩

/-! ## What belongs to a region -/

section Regions

variable {region : Region} {stage : Stage} {stop n : Nat} {stretch : Stretch}

theorem Framed.mem_regions (h : c.Framed) :
    region ∈ c.state.regions.toList ↔ ∃ x ∈ c.closed, x.1.region? x.2 = some region := by
  rw [h.regions, List.mem_filterMap]

/-- An instruction stands in a handler exactly if it belongs to it. -/
theorem Mapped.inHandler_iff (h : c.Mapped) (hx : (stage, stop) ∈ c.closed)
    (hr : stage.region? stop = some region) (hn : n < c.size) :
    region.inHandler n = true ↔ stage.path <:+ (c.cells n).path := by
  obtain ⟨-, hstart, hstop, -⟩ := Stage.region?_eq_some hr
  rw [h.outside _ hx n hn, Region.inHandler, hstart, hstop]
  simp only [Bool.and_eq_true, decide_eq_true_eq]

/-- Between the ends of parts that follow one another stands what belongs to one of them. -/
theorem Chained.cover (h : c.Chained stage) (hm : c.Mapped) (hn : n < c.size)
    {body : Stretch} {rest : List Stretch} (hdone : stage.done = body :: rest) :
    (∃ stretch ∈ stage.done, stage.sibling stretch.part <:+ (c.cells n).path) ↔
      body.start ≤ n ∧ n < stage.start := by
  obtain ⟨start, hstart⟩ := h.contiguous
  have first : body.start = start := by
    rw [hdone] at hstart
    exact hstart.1
  rw [first, ← hstart.cover]
  refine exists_congr fun stretch => and_congr_right fun hs => ?_
  obtain ⟨other, hx, -, hstart, hpath⟩ := h.closed stretch hs
  rw [← hpath, hm.outside _ hx n hn, hstart]

/-- An instruction is protected exactly if it belongs to a part that the handler protects. -/
theorem Framed.protects_iff (h : c.Framed) (hm : c.Mapped) (hs : c.Staged env)
    (hx : (stage, stop) ∈ c.closed) (hr : stage.region? stop = some region) (hn : n < c.size) :
    region.protects n = true ↔
      ∃ stretch ∈ stage.guarded, stage.sibling stretch.part <:+ (c.cells n).path := by
  have chained := h.chained stage (hs.closed _ hx)
  obtain ⟨hkind, hstart, -, body, rest, hdone, hbody, hend⟩ := Stage.region?_eq_some hr
  have between : region.protects n = true ↔
      body.start ≤ n ∧ n < region.kind.tryEnd body.stop stage.start := by
    rw [Region.protects, hbody, hend]
    simp only [Bool.and_eq_true, decide_eq_true_eq]
  rw [between, Stage.guarded, hkind]
  cases region.kind with
  | «catch» type =>
    obtain ⟨other, hother, -, hstart, hpath⟩ := chained.closed body (hdone ▸ List.mem_cons_self)
    simp only [hdone, List.take_succ_cons, List.take_zero, List.mem_singleton, exists_eq_left]
    rw [← hpath, hm.outside _ hother n hn, hstart]
    rfl
  | «finally» => exact (chained.cover hm hn hdone).symm

/-- Only the first part of a `try` is no handler. -/
theorem Staged.body_of_handler (h : c.Staged env) (hs : stage ∈ c.opened)
    (hd : stretch ∈ stage.done) (hp : stretch.part.handler = none) :
    ∃ rest, stage.done = stretch :: rest := by
  obtain ⟨rest, hparts⟩ := h.parts stage hs
  cases hdone : stage.done with
  | nil => simp [hdone] at hd
  | cons first others =>
    rw [hdone] at hd
    rcases List.mem_cons.mp hd with rfl | hd
    · exact ⟨others, rfl⟩
    · obtain hnil | ⟨body, tail, htail, -, -, handlers⟩ := env.graph.parts_cases stage.source
      · rw [hnil] at hparts
        simp [Stage.parts] at hparts
      · rw [htail, Stage.parts, hdone] at hparts
        obtain ⟨-, rfl⟩ := List.cons.inj hparts
        have handler := handlers stretch.part (by simp [List.mem_map_of_mem hd])
        rw [hp] at handler
        obtain ⟨-, _, h⟩ | ⟨_, -, h⟩ := handler <;> cases h

/-- No `finally` handler comes in front of another part. -/
theorem Staged.not_finally_of_done (h : c.Staged env) (hs : stage ∈ c.opened)
    (hd : stretch ∈ stage.done) : stretch.part.handler ≠ some .finally := by
  intro hf
  obtain ⟨rest, hparts⟩ := h.parts stage hs
  obtain ⟨front, back, hdone⟩ := List.append_of_mem hd
  rw [Stage.parts, hdone] at hparts
  unfold Graph.parts at hparts
  split at hparts
  case h_1 edge _ =>
    have split : edge.kind.parts = front.map (·.part) ++
        stretch.part :: (back.map (·.part) ++ stage.part :: rest) := by
      rw [← hparts]
      simp
    have last := EdgeKind.finally_last split hf
    simp at last
  case h_2 => simp at hparts

/-- A handler that has been laid out has a region. -/
theorem Staged.exists_region (h : c.Staged env) (hs : stage ∈ c.opened) {kind : HandlerKind}
    (hk : stage.part.handler = some kind) (stop : Nat) :
    ∃ region, stage.region? stop = some region ∧ region.kind = kind := by
  obtain ⟨rest, hparts⟩ := h.parts stage hs
  cases hdone : stage.done with
  | nil =>
    -- The first part of a `try` is no handler.
    obtain hnil | ⟨body, tail, htail, -, hbody, -⟩ := env.graph.parts_cases stage.source
    · rw [hnil] at hparts
      simp [Stage.parts] at hparts
    · rw [htail, Stage.parts, hdone] at hparts
      obtain ⟨rfl, -⟩ := List.cons.inj hparts
      rw [hk] at hbody
      cases hbody
  | cons body others =>
    unfold Stage.region?
    rw [hk, hdone]
    exact ⟨_, rfl, rfl⟩

end Regions

end Chart

end StackScript
