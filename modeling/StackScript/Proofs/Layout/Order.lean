import StackScript.Proofs.Layout.Nesting

/-!
# The order of the regions

The protected parts and the handlers of all regions are stretches of code that lie in each other or
apart, and the inner regions are listed first. So a search that takes the first region that protects
an instruction takes an innermost one.

## Main definitions

* `Extent`: a stretch of code
* `Region.guarded`, `Region.handler`: the two stretches of a region
* `Layout.WellNested`: how the stretches of all regions lie, and in which order they are listed

## Main results

* `Chart.Drawn.guarded_of_protects`: of two regions that protect an instruction, the one that ends
  first protects the less
* `wellNested_of_layOut`: the regions of every layout lie so
-/

namespace StackScript

/-! ## Stretches of code -/

/-- The instructions from one offset to another, the last one excluded. -/
structure Extent where
  first : Nat
  past : Nat
  deriving Repr, DecidableEq

namespace Extent

/-- All of the first stretch is in the second. -/
def Within (inner outer : Extent) : Prop := outer.first ≤ inner.first ∧ inner.past ≤ outer.past

/-- No instruction is in both stretches. -/
def Apart (e e' : Extent) : Prop := e.past ≤ e'.first ∨ e'.past ≤ e.first

/-- Two stretches lie in each other or apart. -/
def Laminar (e e' : Extent) : Prop := e.Apart e' ∨ e.Within e' ∨ e'.Within e

variable {e e' : Extent}

theorem Laminar.symm (h : e.Laminar e') : e'.Laminar e := by
  obtain h | h | h := h
  · exact .inl h.symm
  · exact .inr (.inr h)
  · exact .inr (.inl h)

/-- A stretch that is not empty is in another one if its instructions are. -/
theorem within_of_forall (hne : e.first < e.past)
    (h : ∀ n, e.first ≤ n → n < e.past → e'.first ≤ n ∧ n < e'.past) : e.Within e' := by
  obtain ⟨first, -⟩ := h e.first (Nat.le_refl _) hne
  obtain ⟨-, last⟩ := h (e.past - 1) (by omega) (by omega)
  exact ⟨first, by omega⟩

/-- Stretches that are not apart, and not empty, share an instruction. -/
theorem exists_of_not_apart (hne : e.first < e.past) (hne' : e'.first < e'.past)
    (h : ¬ e.Apart e') : ∃ n, (e.first ≤ n ∧ n < e.past) ∧ e'.first ≤ n ∧ n < e'.past := by
  unfold Apart at h
  exact ⟨max e.first e'.first, by omega, by omega⟩

/-- Two tests of which one implies the other if an instruction passes both hold of stretches that
lie in each other or apart. -/
theorem laminar_of_tests {inside inside' : Nat → Bool}
    (is : ∀ {n}, inside n = true ↔ e.first ≤ n ∧ n < e.past)
    (is' : ∀ {n}, inside' n = true ↔ e'.first ≤ n ∧ n < e'.past) (hne : e.first < e.past)
    (hne' : e'.first < e'.past)
    (h : ∀ n, inside n = true → inside' n = true →
      (∀ m, inside m = true → inside' m = true) ∨ ∀ m, inside' m = true → inside m = true) :
    e.Laminar e' := by
  refine or_iff_not_imp_left.mpr fun hmeet => ?_
  obtain ⟨n, hn, hn'⟩ := exists_of_not_apart hne hne' hmeet
  obtain within | within := h n (is.mpr hn) (is'.mpr hn')
  · exact .inl (within_of_forall hne fun m hm hlt => is'.mp (within m (is.mpr ⟨hm, hlt⟩)))
  · exact .inr (within_of_forall hne' fun m hm hlt => is.mp (within m (is'.mpr ⟨hm, hlt⟩)))

end Extent

namespace Region

/-- The protected stretch of a region. -/
def guarded (region : Region) : Extent := ⟨region.tryStart, region.tryEnd⟩

/-- The stretch of a region's handler. -/
def handler (region : Region) : Extent := ⟨region.handlerStart, region.handlerEnd⟩

/-- The two stretches of a region. -/
def extents (region : Region) : List Extent := [region.guarded, region.handler]

end Region

/-- The regions of a layout lie in each other or apart, the inner ones first. -/
structure Layout.WellNested (layout : Layout) : Prop where
  /-- The handler comes behind the protected code, and neither of them is empty. -/
  bounds : ∀ region ∈ layout.regions, region.tryStart < region.tryEnd ∧
    region.tryEnd ≤ region.handlerStart ∧ region.handlerStart < region.handlerEnd ∧
    region.handlerEnd ≤ layout.assembled.code.size
  laminar : ∀ region ∈ layout.regions, ∀ other ∈ layout.regions,
    ∀ e ∈ region.extents, ∀ e' ∈ other.extents, e.Laminar e'
  /-- Of two regions that protect an instruction, the first one protects the less. -/
  order : layout.regions.Pairwise fun inner outer =>
    ¬ inner.guarded.Apart outer.guarded → inner.guarded.Within outer.guarded
  /-- The regions that protect an instruction are listed from the inside out. -/
  outward : ∀ n, (layout.regions.filter (·.protects n)).Pairwise fun inner outer =>
    inner.guarded.Within outer.guarded
  /-- The first region found is inside all others that would do as well. -/
  innermost : ∀ (n : Nat) (suits : Region → Bool) (region : Region),
    layout.regions.find? (fun region => region.protects n && suits region) = some region →
    ∀ other ∈ layout.regions, other.protects n = true → suits other = true →
      region.guarded.Within other.guarded

/-! ## Regions of a chart -/

namespace Chart.Drawn

variable {env : LayoutEnv} {c : Chart} {region region' : Region} {stage stage' : Stage}
  {stop stop' n m : Nat}

/-- What an instruction of a handler shares with one of another handler. -/
theorem handler_or_handler (h : c.Drawn env) (hx : (stage, stop) ∈ c.closed)
    (hr : stage.region? stop = some region) (hx' : (stage', stop') ∈ c.closed)
    (hr' : stage'.region? stop' = some region') (hn : region.inHandler n = true)
    (hn' : region'.inHandler n = true) :
    (∀ m, region.inHandler m = true → region'.inHandler m = true) ∨
      ∀ m, region'.inHandler m = true → region.inHandler m = true := by
  obtain hp | hp := List.suffix_or_suffix_of_suffix (h.path_of_inHandler hx hr hn)
    (h.path_of_inHandler hx' hr' hn')
  · refine .inr fun m hm => ?_
    rw [h.plotted.mapped.inHandler_iff hx hr (h.lt_of_inHandler hx' hr' hm)]
    exact hp.trans (h.path_of_inHandler hx' hr' hm)
  · refine .inl fun m hm => ?_
    rw [h.plotted.mapped.inHandler_iff hx' hr' (h.lt_of_inHandler hx hr hm)]
    exact hp.trans (h.path_of_inHandler hx hr hm)

/-- A handler that holds a protected instruction holds all of them, or is protected itself. -/
theorem handler_or_guarded (h : c.Drawn env) (hx : (stage, stop) ∈ c.closed)
    (hr : stage.region? stop = some region) (hx' : (stage', stop') ∈ c.closed)
    (hr' : stage'.region? stop' = some region') (hn : region.inHandler n = true)
    (hn' : region'.protects n = true) :
    (∀ m, region.inHandler m = true → region'.protects m = true) ∨
      ∀ m, region'.protects m = true → region.inHandler m = true := by
  obtain ⟨-, stretch, hs, hp'⟩ := h.sibling_of_protects hx' hr' hn'
  -- The protected part is around the handler.
  have around (hp : stage'.sibling stretch.part <:+ stage.path) (m : Nat)
      (hm : region.inHandler m = true) : region'.protects m = true := by
    rw [h.plotted.framed.protects_iff h.plotted.mapped h.plotted.staged hx' hr'
      (h.lt_of_inHandler hx hr hm)]
    exact ⟨stretch, hs, hp.trans (h.path_of_inHandler hx hr hm)⟩
  obtain hp | hp := List.suffix_or_suffix_of_suffix (h.path_of_inHandler hx hr hn) hp'
  · obtain he | hp := List.suffix_cons_iff.mp hp
    · exact .inl (around (he ▸ List.suffix_refl _))
    · -- The handler is around the whole `try`.
      refine .inr fun m hm => ?_
      obtain ⟨lt, other, -, ho⟩ := h.sibling_of_protects hx' hr' hm
      rw [h.plotted.mapped.inHandler_iff hx hr lt]
      exact (hp.trans (List.suffix_cons _ _)).trans ho
  · exact .inl (around hp)

/-- The parts of a `try` that a `finally` handler protects are all but the handler. -/
theorem mem_done_of_finally (h : c.Drawn env) (hs : stage ∈ c.opened) (hs' : stage' ∈ c.opened)
    (hk : stage.part.handler = some .finally) (hsource : stage'.source = stage.source) :
    stage'.part = stage.part ∨ ∃ stretch ∈ stage.done, stretch.part = stage'.part := by
  have part := h.plotted.staged.mem_parts hs'
  obtain ⟨rest, parts⟩ := h.plotted.staged.parts stage hs
  rw [hsource] at part
  rw [Graph.parts] at part parts
  split at part
  case h_1 edge hedge =>
    simp only [hedge, Stage.parts, List.append_assoc, List.singleton_append] at parts
    obtain rfl := EdgeKind.finally_last parts.symm hk
    rw [← parts] at part
    obtain hd | hp := List.mem_append.mp part
    · exact .inr (List.mem_map.mp hd)
    · exact .inl (List.mem_singleton.mp hp)
  case h_2 => cases part

/-- A `finally` handler ends behind the other parts of its `try`. -/
theorem lt_of_finally (h : c.Drawn env) (hx : (stage, stop) ∈ c.closed)
    (hx' : (stage', stop') ∈ c.closed) (hk : stage.part.handler = some .finally)
    (hsource : stage'.source = stage.source) (houter : stage'.outer = stage.outer)
    (hne : stage'.path ≠ stage.path) : stop' < stop := by
  have staged := h.plotted.staged
  obtain he | ⟨stretch, hd, hpart⟩ := h.mem_done_of_finally (staged.closed _ hx)
    (staged.closed _ hx') hk hsource
  · exact (hne (by rw [Stage.path, Stage.path, hsource, houter, he])).elim
  · obtain ⟨laid, hlaid, -, -, hpath⟩ :=
      (h.plotted.framed.chained stage (staged.closed _ hx)).closed stretch hd
    have same : laid = stage' := staged.stage_unique (staged.closed _ hlaid) (staged.closed _ hx')
      (by rw [hpath, Stage.sibling, Stage.path, hsource, houter, hpart])
    rw [same] at hlaid
    rw [h.stop_unique hx' hlaid]
    -- The parts in front of the handler end where it starts.
    obtain ⟨start, contiguous⟩ :=
      (h.plotted.framed.chained stage (staged.closed _ hx)).contiguous
    have nonempty : stretch.start < stretch.stop := by
      obtain ⟨other, hother, -, hstart, -⟩ :=
        (h.plotted.framed.chained stage (staged.closed _ hx)).closed stretch hd
      have := h.sealed.nonempty _ hother
      dsimp only at this
      omega
    have inside := (contiguous.cover (n := stretch.stop - 1)).mp ⟨stretch, hd, by omega, by omega⟩
    have handler : stage.start < stop := h.sealed.nonempty _ hx
    omega

/-- **A region that ends first protects the less**, of two that protect an instruction. -/
theorem guarded_of_protects (h : c.Drawn env) (hx : (stage, stop) ∈ c.closed)
    (hr : stage.region? stop = some region) (hx' : (stage', stop') ∈ c.closed)
    (hr' : stage'.region? stop' = some region') (hle : stop ≤ stop')
    (hpath : ¬ stage.path <:+ stage'.path) (hn : region.protects n = true)
    (hn' : region'.protects n = true) (hm : region.protects m = true) :
    region'.protects m = true := by
  have staged := h.plotted.staged
  obtain ⟨hkind, -, hstop, first, rest, hdone, -⟩ := Stage.region?_eq_some hr
  obtain ⟨-, -, hstop', -⟩ := Stage.region?_eq_some hr'
  have outer := h.outer_of_protects hx hr hx' hr' (by omega) hn hn'
  obtain ⟨-, stretch, hs, hp⟩ := h.sibling_of_protects hx hr hn
  obtain ⟨-, stretch', hs', hp'⟩ := h.sibling_of_protects hx' hr' hn'
  obtain ⟨lt, other, ho, hpm⟩ := h.sibling_of_protects hx hr hm
  rw [h.plotted.framed.protects_iff h.plotted.mapped staged hx' hr' lt]
  have inside : stage'.sibling stretch'.part <:+ stage.sibling stretch.part := by
    obtain hq | hq := List.suffix_or_suffix_of_suffix hp hp'
    · obtain he | hq := List.suffix_cons_iff.mp hq
      · exact he ▸ List.suffix_refl _
      · have := (hq.trans outer).length_le
        simp only [Stage.sibling, List.length_cons] at this
        omega
    · exact hq
  obtain he | hq := List.suffix_cons_iff.mp inside
  · -- Two handlers of one `try`.
    obtain ⟨htag, houter⟩ := List.cons.inj he
    have hsource : stage'.source = stage.source := congrArg Tag.source htag
    cases hk : region.kind with
    | «catch» type =>
      -- The only part that is protected is the one that both protect.
      rw [Stage.guarded, hkind, hk, hdone] at hs ho
      simp only [List.take_succ_cons, List.take_zero, List.mem_singleton] at hs ho
      rw [hs, ← ho] at he
      exact ⟨stretch', hs', he ▸ hpm⟩
    | «finally» =>
      rw [hk] at hkind
      have before := h.lt_of_finally hx hx' hkind hsource houter
        fun hsame => hpath (hsame ▸ List.suffix_refl _)
      omega
  · exact ⟨stretch', hs', (hq.trans (List.suffix_cons _ _)).trans hpm⟩

end Chart.Drawn

/-! ## Layouts -/

section Layouts

variable {body : BodyEnv} {graph : Graph} {draft : Draft} {layout : Layout} {c : Chart}

namespace Chart.Final

variable {other region : Region}

/-- The chart of a layout that has succeeded is sealed. -/
theorem drawn (h : c.Final body graph draft layout) :
    c.Drawn ⟨body, graph, protectedRanges graph⟩ := by
  have fault : draft.asm.fault = none := (h.steps.evolves ready_start).1.fault h.fault
  obtain ⟨plotted, «sealed»⟩ := h.steps.plotted (I := Sealed) h.start h.fault
    (fun _ => sealed_start h.start fault)
    fun hstep hp hp' hf hsealed => hsealed.step hp hp' hstep hf
  exact ⟨plotted, «sealed»⟩

/-- A region is that of a handler that has been laid out. -/
theorem exists_closed (h : c.Final body graph draft layout) (hr : region ∈ layout.regions) :
    ∃ stage stop, (stage, stop) ∈ c.closed ∧ stage.region? stop = some region := by
  rw [h.regions, h.drawn.plotted.framed.mem_regions] at hr
  obtain ⟨x, hx, hr⟩ := hr
  exact ⟨x.1, x.2, hx, hr⟩

/-- Neither part of a region is empty. -/
theorem bounds (h : c.Final body graph draft layout) (hr : region ∈ layout.regions) :
    region.tryStart < region.tryEnd ∧
      region.tryEnd ≤ region.handlerStart ∧ region.handlerStart < region.handlerEnd ∧
      region.handlerEnd ≤ layout.assembled.code.size := by
  obtain ⟨stage, stop, hx, hr⟩ := h.exists_closed hr
  rw [h.size]
  exact h.drawn.bounds hx hr

/-- The inner regions are listed first. -/
theorem order (h : c.Final body graph draft layout) :
    layout.regions.Pairwise fun inner outer =>
      ¬ inner.guarded.Apart outer.guarded → inner.guarded.Within outer.guarded := by
  have drawn := h.drawn
  rw [h.regions, drawn.plotted.framed.regions, List.pairwise_filterMap]
  refine drawn.sealed.order.imp_of_mem fun {x y} hx hy ⟨hle, hpath⟩ inner hr outer hr' hmeet => ?_
  obtain ⟨nonempty, -⟩ := drawn.bounds hx hr
  obtain ⟨nonempty', -⟩ := drawn.bounds hy hr'
  obtain ⟨n, hn, hn'⟩ := Extent.exists_of_not_apart nonempty nonempty' hmeet
  refine Extent.within_of_forall nonempty fun m hm hlt => ?_
  exact Region.protects_iff.mp (drawn.guarded_of_protects hx hr hy hr' hle hpath
    (Region.protects_iff.mpr hn) (Region.protects_iff.mpr hn')
    (Region.protects_iff.mpr ⟨hm, hlt⟩))

/-- The protected parts of two regions lie in each other or apart. -/
theorem guarded_laminar (h : c.Final body graph draft layout) (hr : region ∈ layout.regions)
    (ho : other ∈ layout.regions) : region.guarded.Laminar other.guarded := by
  have one : layout.regions.Pairwise fun region other => region.guarded.Laminar other.guarded :=
    h.order.imp fun within => or_iff_not_imp_left.mpr fun hmeet => .inl (within hmeet)
  exact one.forall_of_forall_of_flip (fun _ _ => .inr (.inl ⟨Nat.le_refl _, Nat.le_refl _⟩))
    (one.imp Extent.Laminar.symm) hr ho

/-- The handler of a region and the protected part of another one lie in each other or apart. -/
theorem handler_guarded_laminar (h : c.Final body graph draft layout) (hr : region ∈ layout.regions)
    (ho : other ∈ layout.regions) : region.handler.Laminar other.guarded := by
  obtain ⟨-, -, nonempty, -⟩ := h.bounds hr
  obtain ⟨nonempty', -⟩ := h.bounds ho
  obtain ⟨stage, stop, hx, hr⟩ := h.exists_closed hr
  obtain ⟨stage', stop', hx', hr'⟩ := h.exists_closed ho
  exact Extent.laminar_of_tests Region.inHandler_iff Region.protects_iff nonempty nonempty'
    fun n => h.drawn.handler_or_guarded hx hr hx' hr'

/-- The handlers of two regions lie in each other or apart. -/
theorem handler_laminar (h : c.Final body graph draft layout) (hr : region ∈ layout.regions)
    (ho : other ∈ layout.regions) : region.handler.Laminar other.handler := by
  obtain ⟨-, -, nonempty, -⟩ := h.bounds hr
  obtain ⟨-, -, nonempty', -⟩ := h.bounds ho
  obtain ⟨stage, stop, hx, hr⟩ := h.exists_closed hr
  obtain ⟨stage', stop', hx', hr'⟩ := h.exists_closed ho
  exact Extent.laminar_of_tests Region.inHandler_iff Region.inHandler_iff nonempty nonempty'
    fun n => h.drawn.handler_or_handler hx hr hx' hr'

/-- The regions that protect an instruction, the inner ones first. -/
theorem outward (h : c.Final body graph draft layout) (n : Nat) :
    (layout.regions.filter (·.protects n)).Pairwise fun inner outer =>
      inner.guarded.Within outer.guarded := by
  rw [List.pairwise_filter]
  refine h.order.imp fun within hn hn' => within fun happart => ?_
  rw [Region.protects_iff] at hn hn'
  obtain happart | happart := happart
  · exact Nat.lt_irrefl n (Nat.lt_of_lt_of_le hn.2 (Nat.le_trans happart hn'.1))
  · exact Nat.lt_irrefl n (Nat.lt_of_lt_of_le hn'.2 (Nat.le_trans happart hn.1))

end Chart.Final

/-- A list in which the first ones are inside: what is found first is inside all others. -/
theorem within_of_find? {regions : List Region} {suits : Region → Bool} {region other : Region}
    (h : (regions.filter suits).Pairwise fun inner outer => inner.guarded.Within outer.guarded)
    (hr : regions.find? suits = some region) (ho : other ∈ regions) (hs : suits other = true) :
    region.guarded.Within other.guarded := by
  rw [← List.head?_filter] at hr
  obtain ⟨rest, hrest⟩ := List.head?_eq_some_iff.mp hr
  have mem : other ∈ regions.filter suits := List.mem_filter.mpr ⟨ho, hs⟩
  rw [hrest] at h mem
  obtain rfl | mem := List.mem_cons.mp mem
  · exact ⟨Nat.le_refl _, Nat.le_refl _⟩
  · exact (List.pairwise_cons.mp h).1 other mem

/-- **The regions of a layout are well nested**, the inner ones first. -/
theorem wellNested_of_layOut {steps : List BuildStep} (hg : Graph.build steps = .ok graph)
    (hdraft : Assembler.Evolves .empty draft.asm)
    (h : (layOut body graph draft).1 = .ok layout) : layout.WellNested := by
  obtain ⟨c, final⟩ := Chart.final_of_layOut (Graph.built_of_build hg) hdraft h
  refine ⟨fun _ => final.bounds, ?_, final.order, final.outward, ?_⟩
  · intro region hr other ho e he e' he'
    simp only [Region.extents, List.mem_cons, List.not_mem_nil, or_false] at he he'
    obtain rfl | rfl := he <;> obtain rfl | rfl := he'
    · exact final.guarded_laminar hr ho
    · exact (final.handler_guarded_laminar ho hr).symm
    · exact final.handler_guarded_laminar hr ho
    · exact final.handler_laminar hr ho
  · intro n suits region hr other ho hn hsuits
    refine within_of_find? ?_ hr ho (by rw [hn, hsuits]; rfl)
    rw [← List.filter_filter]
    exact ((final.outward n).sublist (List.filter_sublist.filter _))

/-- A `try` with two handlers and a completion. The second handler and the completion have `try`s
of their own. -/
def guardsInHandlers : List BuildStep := [
  .addBlocks 11,
  .connect 0 (.tryCatch 2 [⟨⟨"Failure"⟩, none, 3⟩, ⟨⟨"Exception"⟩, some "e", 4⟩] (some 8) 12),
  .connect 2 (.jump 12),
  .connect 3 (.jump 12),
  .connect 4 (.tryCatch 5 [⟨⟨"Exception"⟩, none, 6⟩] none 7),
  .connect 5 (.jump 7),
  .connect 6 (.jump 7),
  .connect 7 (.jump 12),
  .connect 8 (.tryCatch 9 [] (some 10) 11),
  .connect 9 (.jump 11),
  .connect 10 (.jump 11),
  .connect 11 (.jump 12),
  .connect 12 (.jump 1)]

theorem wellNested_of_layOut_guardsInHandlers :
    ∃ graph layout, Graph.build guardsInHandlers = .ok graph ∧
      (layOut ⟨⟨[], none⟩, .ofPreset .release, "f", [], true, true⟩ graph (.start 0)).1 =
        .ok layout ∧
      layout.regions.length = 5 ∧ layout.WellNested := by
  have laid : ((Graph.build guardsInHandlers).toOption.bind fun graph =>
      (layOut ⟨⟨[], none⟩, .ofPreset .release, "f", [], true, true⟩ graph
        (.start 0)).1.toOption).map (·.regions.length) = some 5 := by decide +kernel
  cases hg : Graph.build guardsInHandlers with
  | error =>
    rw [hg] at laid
    cases laid
  | ok graph =>
    rw [hg] at laid
    simp only [Except.toOption, Option.bind_some] at laid
    cases h : (layOut ⟨⟨[], none⟩, .ofPreset .release, "f", [], true, true⟩ graph (.start 0)).1 with
    | error =>
      rw [h] at laid
      cases laid
    | ok layout =>
      rw [h] at laid
      exact ⟨graph, layout, rfl, h, Option.some.inj laid, wellNested_of_layOut hg (.refl _) h⟩

end Layouts

end StackScript
