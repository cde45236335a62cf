import StackScript.Proofs.Layout.Plan

/-!
# How regions lie

The regions of a body lie in each other or apart, the inner ones first in its table. What holds of
the scopes of a chart is said here of the offsets in the table alone.

## Main definitions

* `Body.Outward`: of two regions that protect an instruction, one is inside the other
* `Body.Nested`: how the regions of a body lie

## Main results

* `Chart.Plan.nested`: the regions of a routine lie so
-/

namespace StackScript

theorem Region.isFinally_iff {region : Region} :
    region.isFinally = true ↔ region.kind = .finally := by
  unfold isFinally
  cases region.kind <;> simp

theorem Region.inHandler_iff {region : Region} {n : Nat} :
    region.inHandler n = true ↔ region.handlerStart ≤ n ∧ n < region.handlerEnd := by
  simp only [inHandler, Bool.and_eq_true, decide_eq_true_eq]

theorem Region.protects_iff {region : Region} {n : Nat} :
    region.protects n = true ↔ region.tryStart ≤ n ∧ n < region.tryEnd := by
  simp only [protects, Bool.and_eq_true, decide_eq_true_eq]

namespace Body

/-- Where both regions protect an instruction, the handlers around the second one are around the
first one as well, which the second handler is apart from. -/
structure Outward (body : Body) (inner outer : Region) : Prop where
  before : inner.inHandler outer.handlerStart = false
  apart : ∀ {n m}, inner.protects n = true → outer.protects n = true →
    inner.inHandler m = true → outer.inHandler m = false
  around : ∀ {n m}, inner.protects n = true → outer.protects n = true →
    inner.inHandler m = true → ∀ other ∈ body.regions, other ≠ outer →
      other.inHandler outer.handlerStart = true → other.inHandler m = true

/-- The regions of a body lie in each other or apart. -/
structure Nested (body : Body) : Prop where
  /-- A handler comes behind what it protects, and is not empty. -/
  bounds : ∀ region ∈ body.regions, region.tryStart < region.handlerStart ∧
    region.tryEnd ≤ region.handlerStart ∧ region.handlerStart < region.handlerEnd
  /-- The inner regions come first. -/
  outward : body.regions.Pairwise body.Outward
  /-- The handlers that a handler starts in are those that its `try` is in. -/
  around : ∀ region ∈ body.regions, ∀ other ∈ body.regions, other ≠ region →
    other.inHandler region.handlerStart = true →
      ∀ n, region.protects n = true → other.inHandler n = true
  /-- A `finally` handler that is not left, when protected code is, is around it. -/
  beyond : ∀ region ∈ body.regions, ∀ other ∈ body.regions, other.isFinally = true → ∀ {n t},
    region.protects n = true → region.protects t = false → other.inHandler n = true →
      other.inHandler t = true → ∀ m, region.inHandler m = true → other.inHandler m = true

end Body

namespace Chart.Drawn

variable {env : LayoutEnv} {c : Chart} {region region' : Region}
  {stage stage' : Stage} {n m stop stop' : Nat}

/-- The offsets of a region follow one another. -/
theorem bounds (h : c.Drawn env) (hx : (stage, stop) ∈ c.closed)
    (hr : stage.region? stop = some region) :
    region.tryStart < region.tryEnd ∧ region.tryEnd ≤ region.handlerStart ∧
      region.handlerStart < region.handlerEnd ∧ region.handlerEnd ≤ c.size := by
  obtain ⟨-, hstart, hstop, first, rest, hdone, htry, hend⟩ := Stage.region?_eq_some hr
  have chained := h.plotted.framed.chained stage (h.plotted.staged.closed _ hx)
  have nonempty : stage.start < stop := h.sealed.nonempty _ hx
  have inside : stop ≤ c.size :=
    Nat.le_trans (h.plotted.mapped.stops _ hx) h.plotted.sound.pinned_le
  -- The body of the `try` comes first, and is not empty either.
  obtain ⟨other, hother, -, hotherStart, -⟩ := chained.closed first (hdone ▸ List.mem_cons_self)
  have body : other.start < first.stop := h.sealed.nonempty _ hother
  have front : first.stop ≤ stage.start := by
    obtain ⟨start, contiguous⟩ := chained.contiguous
    rw [hdone] at contiguous
    exact contiguous.2.2.le
  have tryEnd : first.stop ≤ region.tryEnd ∧ region.tryEnd ≤ stage.start := by
    rw [hend]
    cases region.kind with
    | «catch» => exact ⟨Nat.le_refl _, front⟩
    | «finally» => exact ⟨front, Nat.le_refl _⟩
  omega

theorem lt_of_inHandler (h : c.Drawn env) (hx : (stage, stop) ∈ c.closed)
    (hr : stage.region? stop = some region) (hn : region.inHandler n = true) : n < c.size := by
  obtain ⟨-, -, -, inside⟩ := h.bounds hx hr
  exact Nat.lt_of_lt_of_le (Region.inHandler_iff.mp hn).2 inside

/-- An instruction in a handler belongs to it. -/
theorem path_of_inHandler (h : c.Drawn env) (hx : (stage, stop) ∈ c.closed)
    (hr : stage.region? stop = some region) (hn : region.inHandler n = true) :
    stage.path <:+ (c.cells n).path :=
  (h.plotted.mapped.inHandler_iff hx hr (h.lt_of_inHandler hx hr hn)).mp hn

/-- A protected instruction belongs to a part that is protected. -/
theorem sibling_of_protects (h : c.Drawn env) (hx : (stage, stop) ∈ c.closed)
    (hr : stage.region? stop = some region) (hn : region.protects n = true) :
    n < c.size ∧ ∃ stretch ∈ stage.guarded, stage.sibling stretch.part <:+ (c.cells n).path := by
  obtain ⟨-, tryEnd, handler, inside⟩ := h.bounds hx hr
  have lt : n < c.size := by
    have := (Region.protects_iff.mp hn).2
    omega
  exact ⟨lt, (h.plotted.framed.protects_iff h.plotted.mapped h.plotted.staged hx hr lt).mp hn⟩

/-- No `finally` handler is protected by a handler of the same `try`. -/
theorem ne_sibling (h : c.Drawn env) (hs : stage ∈ c.opened) {stretch : Stretch}
    (hd : stretch ∈ stage.guarded) (hs' : stage' ∈ c.opened)
    (hk : stage'.part.handler = some .finally) : stage'.path ≠ stage.sibling stretch.part := by
  intro he
  have hdone := Stage.mem_done_of_mem_guarded hd
  obtain ⟨laid, hlaid, hpart, -, hpath⟩ := (h.plotted.framed.chained stage hs).closed stretch hdone
  have same : laid = stage' := h.plotted.staged.stage_unique (h.plotted.staged.closed _ hlaid) hs'
    (hpath.trans he.symm)
  rw [← same, hpart] at hk
  exact h.plotted.staged.not_finally_of_done hs hdone hk

/-- A part that has been laid out ends at one offset. -/
theorem stop_unique (h : c.Drawn env) (hx : (stage, stop) ∈ c.closed)
    (hx' : (stage, stop') ∈ c.closed) : stop = stop' := by
  have ends {stop stop' : Nat} (hx : (stage, stop) ∈ c.closed) (hx' : (stage, stop') ∈ c.closed) :
      stop' ≤ stop := by
    by_contra hlt
    have nonempty : stage.start < stop := h.sealed.nonempty _ hx
    have inside : stop' ≤ c.size :=
      Nat.le_trans (h.plotted.mapped.stops _ hx') h.plotted.sound.pinned_le
    -- The instruction behind the first end would belong to the part, and not belong to it.
    have out := h.plotted.mapped.outside _ hx stop (by omega)
    have into := h.plotted.mapped.outside _ hx' stop (by omega)
    have same := out.symm.trans into
    dsimp only at same
    omega
  exact Nat.le_antisymm (ends hx' hx) (ends hx hx')

/-- What is around the `try` of a region goes on from in front of the handler to the end of it. -/
theorem around (h : c.Drawn env) (hx : (stage, stop) ∈ c.closed)
    (hr : stage.region? stop = some region) {path : Path} (hp : path <:+ stage.outer) :
    (∃ m < region.handlerStart, m < c.size ∧ path <:+ (c.cells m).path) ∧
      ∃ m, region.handlerEnd = m + 1 ∧ m < c.size ∧ path <:+ (c.cells m).path := by
  obtain ⟨tryStart, tryEnd, handler, inside⟩ := h.bounds hx hr
  obtain ⟨-, -, -, first, rest, hdone, htry, -⟩ := Stage.region?_eq_some hr
  have outer (part : Part) : path <:+ stage.sibling part := hp.trans (List.suffix_cons _ _)
  constructor
  · -- The first instruction of the protected code.
    obtain ⟨other, hother, -, hotherStart, hotherPath⟩ :=
      (h.plotted.framed.chained stage (h.plotted.staged.closed _ hx)).closed first
        (hdone ▸ List.mem_cons_self)
    have lt : other.start < c.size := by omega
    have body := (h.plotted.mapped.outside _ hother other.start lt).mpr
      ⟨Nat.le_refl _, h.sealed.nonempty _ hother⟩
    refine ⟨other.start, by omega, lt, (outer first.part).trans ?_⟩
    rw [← hotherPath]
    exact body
  · -- The last instruction of the handler.
    have last : region.inHandler (region.handlerEnd - 1) = true := by
      rw [Region.inHandler_iff]
      omega
    exact ⟨region.handlerEnd - 1, by omega, h.lt_of_inHandler hx hr last,
      (outer stage.part).trans (h.path_of_inHandler hx hr last)⟩

/-- A handler starts in the handlers whose scopes it is in. -/
theorem suffix_of_inHandler (h : c.Drawn env) (hx : (stage, stop) ∈ c.closed)
    (hr : stage.region? stop = some region) (hx' : (stage', stop') ∈ c.closed)
    (hr' : stage'.region? stop' = some region')
    (hn : region'.inHandler region.handlerStart = true) : stage'.path <:+ stage.path := by
  obtain ⟨-, -, handler, -⟩ := h.bounds hx hr
  have first : region.inHandler region.handlerStart = true :=
    Region.inHandler_iff.mpr ⟨Nat.le_refl _, handler⟩
  obtain hp | hp := List.suffix_or_suffix_of_suffix (h.path_of_inHandler hx' hr' hn)
    (h.path_of_inHandler hx hr first)
  · exact hp
  · obtain he | hp := List.suffix_cons_iff.mp hp
    · exact he ▸ List.suffix_refl _
    · -- A handler inside would start behind.
      obtain ⟨⟨m, hm, hlt, hpm⟩, -⟩ := h.around hx' hr' hp
      have inner := (h.plotted.mapped.inHandler_iff hx hr hlt).mpr hpm
      have := Region.inHandler_iff.mp inner
      have := Region.inHandler_iff.mp hn
      omega

/-- The other handlers that a handler starts in are around its `try`. -/
theorem outer_of_inHandler (h : c.Drawn env) (hx : (stage, stop) ∈ c.closed)
    (hr : stage.region? stop = some region) (hx' : (stage', stop') ∈ c.closed)
    (hr' : stage'.region? stop' = some region') (hne : region' ≠ region)
    (hn : region'.inHandler region.handlerStart = true) : stage'.path <:+ stage.outer := by
  refine (List.suffix_cons_iff.mp (h.suffix_of_inHandler hx hr hx' hr' hn)).resolve_left ?_
  intro he
  obtain rfl : stage' = stage := h.plotted.staged.stage_unique (h.plotted.staged.closed _ hx')
    (h.plotted.staged.closed _ hx) he
  obtain rfl := h.stop_unique hx hx'
  rw [hr] at hr'
  exact hne (Option.some.inj hr').symm

/-- A region that ends first, and protects an instruction with another one, is inside that. -/
theorem outer_of_protects (h : c.Drawn env) (hx : (stage, stop) ∈ c.closed)
    (hr : stage.region? stop = some region) (hx' : (stage', stop') ∈ c.closed)
    (hr' : stage'.region? stop' = some region') (hle : region.handlerEnd ≤ region'.handlerEnd)
    (hn : region.protects n = true) (hn' : region'.protects n = true) :
    stage'.outer <:+ stage.outer := by
  obtain ⟨-, stretch, hs, hp⟩ := h.sibling_of_protects hx hr hn
  obtain ⟨-, stretch', hs', hp'⟩ := h.sibling_of_protects hx' hr' hn'
  obtain hp | hp := List.suffix_or_suffix_of_suffix hp' hp
  · obtain he | hp := List.suffix_cons_iff.mp hp
    · exact (List.cons.inj he).2 ▸ List.suffix_refl _
    · exact (List.suffix_cons _ _).trans hp
  · obtain he | hp := List.suffix_cons_iff.mp hp
    · exact (List.cons.inj he).2 ▸ List.suffix_refl _
    · -- The other region would be in a part that ends in front of the handler.
      obtain ⟨-, m, hm, hlt, hpm⟩ := h.around hx' hr' hp
      have guarded := (h.plotted.framed.protects_iff h.plotted.mapped h.plotted.staged hx hr
        hlt).mpr ⟨stretch, hs, hpm⟩
      obtain ⟨-, htry, handler, -⟩ := h.bounds hx hr
      have := (Region.protects_iff.mp guarded).2
      omega

end Chart.Drawn

namespace Chart.Plan

variable {env : LayoutEnv} {body : Body} {c : Chart}

/-- **The regions of a routine lie in each other or apart.** -/
theorem nested (h : c.Plan env body) : body.Nested := by
  have mapped := h.plotted.mapped
  have staged := h.plotted.staged
  -- Regions are told apart by the paths of their stages: of two paths that lead to one instruction
  -- one is a suffix of the other.
  refine ⟨?_, ?_, ?_, ?_⟩
  · intro region hr
    obtain ⟨stage, stop, hx, hr⟩ := h.exists_stage hr
    obtain ⟨tryStart, tryEnd, handler, -⟩ := h.drawn.bounds hx hr
    exact ⟨Nat.lt_of_lt_of_le tryStart tryEnd, tryEnd, handler⟩
  · rw [h.regions, h.plotted.framed.regions, List.pairwise_filterMap]
    refine h.sealed.order.imp_of_mem fun {x y} hx hy ⟨hle, hpath⟩ inner hr outer hr' => ?_
    obtain ⟨-, -, hstop, -⟩ := Stage.region?_eq_some hr
    obtain ⟨-, -, hstop', -⟩ := Stage.region?_eq_some hr'
    have around {n : Nat} (hn : inner.protects n = true) (hn' : outer.protects n = true) :
        y.1.outer <:+ x.1.outer :=
      h.drawn.outer_of_protects hx hr hy hr' (by omega) hn hn'
    refine ⟨?_, ?_, ?_⟩
    · by_contra hn
      rw [Bool.not_eq_false] at hn
      exact hpath (h.drawn.suffix_of_inHandler hy hr' hx hr hn)
    · intro n m hn hn' hm
      by_contra hm'
      rw [Bool.not_eq_false] at hm'
      obtain hp | hp := List.suffix_or_suffix_of_suffix (h.drawn.path_of_inHandler hx hr hm)
        (h.drawn.path_of_inHandler hy hr' hm')
      · exact hpath hp
      · obtain he | hp := List.suffix_cons_iff.mp hp
        · exact hpath (he ▸ List.suffix_refl _)
        · -- The outer handler would hold what it protects.
          obtain ⟨lt, stretch, -, hsibling⟩ := h.drawn.sibling_of_protects hx hr hn
          have holds := (mapped.inHandler_iff hy hr' lt).mpr
            ((hp.trans (List.suffix_cons _ _)).trans hsibling)
          obtain ⟨-, htry, -⟩ := h.drawn.bounds hy hr'
          have := Region.inHandler_iff.mp holds
          have := Region.protects_iff.mp hn'
          omega
    · intro n m hn hn' hm other hother hne hin
      obtain ⟨stage, stop, hz, hr''⟩ := h.exists_stage hother
      have outside := h.drawn.outer_of_inHandler hy hr' hz hr'' hne hin
      rw [mapped.inHandler_iff hz hr'' (h.drawn.lt_of_inHandler hx hr hm)]
      exact ((outside.trans (around hn hn')).trans (List.suffix_cons _ _)).trans
        (h.drawn.path_of_inHandler hx hr hm)
  · intro region hr other hother hne hin n hn
    obtain ⟨stage, stop, hx, hr⟩ := h.exists_stage hr
    obtain ⟨stage', stop', hx', hr'⟩ := h.exists_stage hother
    obtain ⟨lt, stretch, hs, hp⟩ := h.drawn.sibling_of_protects hx hr hn
    have outer := h.drawn.outer_of_inHandler hx hr hx' hr' hne hin
    rw [mapped.inHandler_iff hx' hr' lt]
    exact (outer.trans (List.suffix_cons _ _)).trans hp
  · intro region hr other hother hf n t hn ht hin hint m hm
    obtain ⟨stage, stop, hx, hr⟩ := h.exists_stage hr
    obtain ⟨stage', stop', hx', hr'⟩ := h.exists_stage hother
    obtain ⟨hkind, -⟩ := Stage.region?_eq_some hr'
    obtain ⟨lt, stretch, hs, hp⟩ := h.drawn.sibling_of_protects hx hr hn
    obtain hp | hp := List.suffix_or_suffix_of_suffix (h.drawn.path_of_inHandler hx' hr' hin) hp
    · have outside : stage'.path <:+ stage.outer := by
        refine (List.suffix_cons_iff.mp hp).resolve_left fun he => ?_
        rw [Region.isFinally_iff.mp hf] at hkind
        exact h.drawn.ne_sibling (staged.closed _ hx) hs (staged.closed _ hx') hkind he
      rw [mapped.inHandler_iff hx' hr' (h.drawn.lt_of_inHandler hx hr hm)]
      exact (outside.trans (List.suffix_cons _ _)).trans (h.drawn.path_of_inHandler hx hr hm)
    · -- What is in the other handler would be protected.
      have guarded := (h.plotted.framed.protects_iff mapped staged hx hr
        (h.drawn.lt_of_inHandler hx' hr' hint)).mpr
          ⟨stretch, hs, hp.trans (h.drawn.path_of_inHandler hx' hr' hint)⟩
      rw [ht] at guarded
      cases guarded

end Chart.Plan

end StackScript
