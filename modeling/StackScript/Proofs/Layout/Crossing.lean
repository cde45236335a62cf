import StackScript.Proofs.Layout.Nesting

/-!
# How control crosses regions

Only a `leave` takes control out of a protected part, and nothing but the machine itself takes it
into a handler. A protected part is entered at its first instruction alone: control falls into it,
or a branch goes there where the block in front of the `try` has no code of its own.

## Main definitions

* `Body.ComesTo`: the instructions that control may come to
* `Body.Fences`: control crosses the ends of a region only where it may

## Main results

* `fences_of_compileRoutine`: the regions of every routine are fenced
* `finally_of_compileRoutine`: a `finally` handler is left by `endFinally`, or to the exit
-/

namespace StackScript

namespace Body

/-- Control may come to the offset: from the start of the body or of a handler, from the
instruction in front of it, or from a branch. -/
inductive ComesTo (body : Body) : Nat → Prop where
  | first : ComesTo body 0
  | handler {region} : region ∈ body.regions → ComesTo body region.handlerStart
  | next {n i} : ComesTo body n → body.code[n]? = some i → i.isTransfer = false →
      ComesTo body (n + 1)
  | branch {n i t} : ComesTo body n → body.code[n]? = some i → i.target? = some t →
      ComesTo body t

/-- Control crosses the ends of a region only where it may. -/
structure Fences (body : Body) (region : Region) : Prop where
  /-- A jump leaves neither part, and does not go into the handler. -/
  jump : ∀ {n i t}, body.code[n]? = some i → i.target? = some t → i ≠ .leave t →
    region.inHandler n = region.inHandler t ∧
      (region.protects n = true → region.protects t = true)
  /-- No branch goes into the handler. -/
  intoHandler : ∀ {n i t}, body.code[n]? = some i → i.target? = some t →
    region.inHandler t = true → region.inHandler n = true
  /-- A branch goes into the protected part at its first instruction alone. -/
  intoBody : ∀ {n i t}, body.code[n]? = some i → i.target? = some t →
    region.protects t = true → region.protects n = true ∨ t = region.tryStart
  /-- Control falls neither out of a part nor into the handler. -/
  fall : ∀ {n i}, body.ComesTo n → body.code[n]? = some i → i.isTransfer = false →
    n + 1 ≠ region.tryEnd ∧ n + 1 ≠ region.handlerStart ∧ n + 1 ≠ region.handlerEnd

/-- The instruction is in a `finally` handler, and in no part of a `try` inside it: all other parts
that it is in start in front of the handler, and end behind it. -/
def EndsFinally (body : Body) (n : Nat) : Prop :=
  ∃ region ∈ body.regions, region.isFinally = true ∧ region.inHandler n = true ∧
    ∀ other ∈ body.regions,
      (other.protects n = true →
        other.tryStart < region.handlerStart ∧ region.handlerEnd ≤ other.tryEnd) ∧
      (other.inHandler n = true → other = region ∨
        other.handlerStart < region.handlerStart ∧ region.handlerEnd ≤ other.handlerEnd)

end Body

/-- The last of several stretches ends where all of them do. -/
theorem Contiguous.exists_stop {start stop : Nat} {stretches : List Stretch}
    (h : Contiguous start stretches stop) (hne : stretches ≠ []) :
    ∃ stretch ∈ stretches, stretch.stop = stop := by
  induction stretches generalizing start with
  | nil => exact (hne rfl).elim
  | cons stretch rest ih =>
    obtain ⟨-, -, h⟩ := h
    cases rest with
    | nil => exact ⟨stretch, List.mem_cons_self, h⟩
    | cons next others =>
      obtain ⟨last, hlast, hstop⟩ := ih h (List.cons_ne_nil _ _)
      exact ⟨last, List.mem_cons_of_mem _ hlast, hstop⟩

/-- What starts with none of the elements that are dropped is behind them. -/
theorem suffix_of_dropped {α : Type} {a : α} {rest dropped outer : List α}
    (h : a :: rest <:+ dropped ++ outer) (ha : a ∉ dropped) : a :: rest <:+ outer := by
  induction dropped with
  | nil => exact h
  | cons b dropped ih =>
    obtain he | h := List.suffix_cons_iff.mp h
    · cases he
      exact (ha List.mem_cons_self).elim
    · exact ih h fun hm => ha (List.mem_cons_of_mem _ hm)

namespace Chart.Plan

variable {env : LayoutEnv} {body : Body} {c : Chart} {region : Region} {stage : Stage}
  {i : Instruction} {n stop t : Nat}

/-! ## Falling through -/

/-- Control that comes to an instruction has come to an offset in front of it from elsewhere, and
has fallen through from there. -/
theorem exists_entry (h : c.Plan env body) (hn : body.ComesTo n) :
    ∃ m ≤ n, c.Entry m ∧
      ∀ k < n, m ≤ k → ∀ i, body.code[k]? = some i → i.isTransfer = false := by
  induction hn with
  | first => exact ⟨0, Nat.le_refl _, .first, fun k hk => by omega⟩
  | @handler region hr =>
    rw [h.regions, h.plotted.framed.mem_regions] at hr
    obtain ⟨x, hx, hr⟩ := hr
    obtain ⟨hkind, hstart, -⟩ := Stage.region?_eq_some hr
    rw [hstart]
    refine ⟨x.1.start, Nat.le_refl _, .handler (h.plotted.staged.closed x hx) hkind, ?_⟩
    intro k hk hle
    omega
  | @next n i _ hi ht ih =>
    obtain ⟨m, hle, entry, plain⟩ := ih
    refine ⟨m, Nat.le_succ_of_le hle, entry, ?_⟩
    intro k hk hmk j hj
    obtain hlt | rfl := Nat.lt_succ_iff_lt_or_eq.mp hk
    · exact plain k hlt hmk j hj
    · rw [hi] at hj
      cases hj
      exact ht
  | @branch n i t _ hi ht _ =>
    obtain ⟨out, max, hfinish, hcode⟩ := h.finish
    rw [← hcode] at hi
    obtain ⟨l, -, -, ho, -⟩ := Assembler.finish_branch h.plotted.sound hfinish hi ht
    exact ⟨t, Nat.le_refl _, .label ho, fun k hk hle => by omega⟩

/-- **Control does not fall out of a part** that has been laid out. -/
theorem not_falls (h : c.Plan env body) (hx : (stage, stop) ∈ c.closed) (hn : body.ComesTo n)
    (hi : body.code[n]? = some i) (ht : i.isTransfer = false) : n + 1 ≠ stop := by
  rintro rfl
  obtain ⟨m, hle, entry, plain⟩ := h.exists_entry hn
  obtain ⟨k, j, hmk, hk, hj, htransfer⟩ :=
    h.sealed.stops _ hx m entry (Nat.lt_succ_of_le hle)
  -- The transfer stands in the finished code as well.
  obtain ⟨out, max, hfinish, hcode⟩ := h.finish
  have finished := Assembler.finish_isTransfer h.plotted.sound hfinish k
  rw [hj, hcode] at finished
  obtain ⟨j', hj', hout⟩ := Option.map_eq_some_iff.mp finished
  have hout : j'.isTransfer = true := hout.trans htransfer
  obtain hlt | rfl := Nat.lt_succ_iff_lt_or_eq.mp hk
  · rw [plain k hlt hmk j' hj'] at hout
    cases hout
  · rw [hi] at hj'
    cases hj'
    rw [ht] at hout
    cases hout

/-! ## Regions -/

/-- Control falls over no end of a region. -/
theorem fall (h : c.Plan env body) (hr : region ∈ body.regions) (hn : body.ComesTo n)
    (hi : body.code[n]? = some i) (ht : i.isTransfer = false) :
    n + 1 ≠ region.tryEnd ∧ n + 1 ≠ region.handlerStart ∧ n + 1 ≠ region.handlerEnd := by
  obtain ⟨stage, stop, hx, hr⟩ := h.exists_stage hr
  obtain ⟨-, hstart, hstop, first, rest, hdone, -, hend⟩ := Stage.region?_eq_some hr
  have chained := h.plotted.framed.chained stage (h.plotted.staged.closed _ hx)
  -- The part in front of the handler ends where the handler starts.
  have front : n + 1 ≠ stage.start := by
    obtain ⟨start, contiguous⟩ := chained.contiguous
    obtain ⟨last, hlast, hstop⟩ := contiguous.exists_stop (by simp [hdone])
    obtain ⟨other, hother, -⟩ := chained.closed last hlast
    rw [← hstop]
    exact h.not_falls hother hn hi ht
  refine ⟨?_, hstart ▸ front, hstop ▸ h.not_falls hx hn hi ht⟩
  rw [hend]
  cases region.kind with
  | «catch» =>
    obtain ⟨other, hother, -⟩ := chained.closed first (hdone ▸ List.mem_cons_self)
    exact h.not_falls hother hn hi ht
  | «finally» => exact front

/-- Control that goes on into bodies alone goes into no handler. -/
theorem suffix_of_enters (h : c.Plan env body) (hs : stage ∈ c.opened) {kind : HandlerKind}
    (hk : stage.part.handler = some kind) {outer inner : Path}
    (he : Enters c.opened t outer inner) (hp : stage.path <:+ inner) : stage.path <:+ outer := by
  obtain hp | ⟨other, ho, hpath, -, hbody⟩ := he.cases_suffix hp
  · exact hp
  · rw [h.plotted.staged.stage_unique ho hs hpath, hk] at hbody
    cases hbody

/-- Control that goes on into bodies is protected already, or comes to the first instruction that
is. -/
theorem protects_of_enters (h : c.Plan env body) (hx : (stage, stop) ∈ c.closed)
    (hr : stage.region? stop = some region) {outer inner : Path}
    (he : Enters c.opened t outer inner)
    (hp : ∃ stretch ∈ stage.guarded, stage.sibling stretch.part <:+ inner) :
    (∃ stretch ∈ stage.guarded, stage.sibling stretch.part <:+ outer) ∨ t = region.tryStart := by
  have staged := h.plotted.staged
  have opened := staged.closed _ hx
  obtain ⟨stretch, hstretch, hp⟩ := hp
  obtain hp | ⟨other, ho, hpath, hstart, hbody⟩ := he.cases_suffix hp
  · exact .inl ⟨stretch, hstretch, hp⟩
  · -- A body that starts there is the first part of the `try`.
    right
    have hdone := Stage.mem_done_of_mem_guarded hstretch
    obtain ⟨laid, hlaid, hpart, hlaidStart, hlaidPath⟩ :=
      (h.plotted.framed.chained stage opened).closed stretch hdone
    have same := staged.stage_unique ho (staged.closed _ hlaid) (hpath.trans hlaidPath.symm)
    rw [same, hpart] at hbody
    obtain ⟨rest, hfirst⟩ := staged.body_of_handler opened hdone hbody
    obtain ⟨-, -, -, first, others, hcons, htry, -⟩ := Stage.region?_eq_some hr
    rw [hfirst] at hcons
    obtain ⟨rfl, -⟩ := List.cons.inj hcons
    rw [htry, ← hstart, same]
    exact hlaidStart

/-- **The ends of a region** are crossed only where they may be. -/
theorem fences (h : c.Plan env body) (hr : region ∈ body.regions) : body.Fences region := by
  obtain ⟨stage, stop, hx, hstage⟩ := h.exists_stage hr
  have mapped := h.plotted.mapped
  have staged := h.plotted.staged
  have opened := staged.closed _ hx
  obtain ⟨hkind, -⟩ := Stage.region?_eq_some hstage
  have inHandler {n : Nat} (hn : n < c.size) :
      region.inHandler n = true ↔ stage.path <:+ (c.cells n).path :=
    mapped.inHandler_iff hx hstage hn
  have protects {n : Nat} (hn : n < c.size) := h.plotted.framed.protects_iff mapped staged hx hstage hn
  -- Every branch goes out of some of its scopes, and then into bodies.
  have goes {n t : Nat} {i : Instruction} (hi : body.code[n]? = some i) (ht : i.target? = some t) :
      n < c.size ∧ t < c.size ∧ ∃ outer, outer <:+ (c.cells n).path ∧
        Enters c.opened t outer (c.cells t).path := by
    obtain ⟨kind, rfl⟩ := Instruction.exists_kind ht
    obtain ⟨hn, htlt, -⟩ := h.exists_branch hi
    refine ⟨hn, htlt, ?_⟩
    by_cases hk : kind = .leave
    · subst hk
      obtain ⟨dropped, outer, hpath, enters, -⟩ := h.leave hi
      exact ⟨outer, ⟨dropped, hpath.symm⟩, enters⟩
    · exact ⟨_, List.suffix_refl _, h.jump hi hk⟩
  refine ⟨?_, ?_, ?_, h.fall hr⟩
  · intro n i t hi ht hne
    obtain ⟨hn, htlt, -⟩ := goes hi ht
    obtain ⟨kind, rfl⟩ := Instruction.exists_kind ht
    have enters := h.jump hi fun hk => hne (hk ▸ rfl)
    constructor
    · rw [Bool.eq_iff_iff, inHandler hn, inHandler htlt]
      exact ⟨fun hp => hp.trans enters.suffix, h.suffix_of_enters opened hkind enters⟩
    · rw [protects hn, protects htlt]
      rintro ⟨stretch, hs, hp⟩
      exact ⟨stretch, hs, hp.trans enters.suffix⟩
  · intro n i t hi ht
    obtain ⟨hn, htlt, outer, hout, enters⟩ := goes hi ht
    rw [inHandler hn, inHandler htlt]
    intro hp
    exact (h.suffix_of_enters opened hkind enters hp).trans hout
  · intro n i t hi ht
    obtain ⟨hn, htlt, outer, hout, enters⟩ := goes hi ht
    rw [protects hn, protects htlt]
    intro hp
    obtain ⟨stretch, hs, hp⟩ | hstart := h.protects_of_enters hx hstage enters hp
    · exact .inl ⟨stretch, hs, hp.trans hout⟩
    · exact .inr hstart

/-! ## `finally` handlers -/

/-- **A `finally` handler keeps control**: branches stay inside, apart from a `leave` to the
exit. -/
theorem keeps (h : c.Plan env body) (hr : region ∈ body.regions) (hf : region.isFinally = true)
    (hi : body.code[n]? = some i) (ht : i.target? = some t) (hn : region.inHandler n = true) :
    region.inHandler t = true ∨ i = .leave t ∧ (Graph.exit, t) ∈ body.blockOffsets := by
  obtain ⟨stage, stop, hx, hstage⟩ := h.exists_stage hr
  have mapped := h.plotted.mapped
  obtain ⟨hkind, -⟩ := Stage.region?_eq_some hstage
  obtain ⟨kind, rfl⟩ := Instruction.exists_kind ht
  obtain ⟨hlt, htlt, -⟩ := h.exists_branch hi
  rw [mapped.inHandler_iff hx hstage hlt] at hn
  rw [mapped.inHandler_iff hx hstage htlt]
  by_cases hk : kind = .leave
  · subst hk
    obtain ⟨dropped, outer, hpath, enters, hall | ⟨-, hexit⟩⟩ := h.leave hi
    · left
      rw [hpath] at hn
      -- A `finally` handler is none of the scopes that are left.
      have kept : (⟨stage.source, stage.part.scope⟩ : Tag) ∉ dropped := by
        intro hmem
        have hleft : stage.part.scope.isLeft = true := hall _ hmem
        obtain ⟨next, hnext⟩ := Graph.kind_of_finally
          (h.plotted.staged.mem_parts (h.plotted.staged.closed _ hx))
          (hkind.trans (congrArg some (Region.isFinally_iff.mp hf)))
        unfold Scope.isLeft at hleft
        rw [show stage.part.scope.kind = .finally next from hnext] at hleft
        cases hleft
      exact (suffix_of_dropped hn kept).trans enters.suffix
    · exact .inr ⟨rfl, hexit⟩
  · exact .inl (hn.trans (h.jump hi hk).suffix)

/-- **The end of a `finally` handler** is in no part inside the handler. -/
theorem ends (h : c.Plan env body) (hi : body.code[n]? = some .endFinally) :
    body.EndsFinally n := by
  obtain ⟨hn, stage, hs, hkind, hpath⟩ := h.exists_stage_of_endFinally hi
  obtain ⟨stop, hx⟩ := h.closed stage hs
  have mapped := h.plotted.mapped
  have staged := h.plotted.staged
  obtain ⟨region, hr, hregion⟩ := staged.exists_region hs hkind stop
  refine ⟨region, h.mem_regions hx hr, Region.isFinally_iff.mpr hregion, ?_, ?_⟩
  · rw [mapped.inHandler_iff hx hr hn, hpath]
  intro other hother
  obtain ⟨stage', stop', hx', hr'⟩ := h.exists_stage hother
  constructor
  · intro hprotects
    rw [h.plotted.framed.protects_iff mapped staged hx' hr' hn, ← hpath] at hprotects
    obtain ⟨stretch, hstretch, hp⟩ := hprotects
    have outside : stage'.sibling stretch.part <:+ stage.outer :=
      (List.suffix_cons_iff.mp hp).resolve_left fun he =>
        h.drawn.ne_sibling (staged.closed _ hx') hstretch hs hkind he.symm
    -- The handler lies in a part outside, so that part has instructions on both sides of it.
    obtain ⟨⟨m, hm, hlt, hin⟩, m', hm', hlt', hin'⟩ := h.drawn.around hx hr outside
    have first := (h.plotted.framed.protects_iff mapped staged hx' hr' hlt).mpr
      ⟨stretch, hstretch, hin⟩
    have last := (h.plotted.framed.protects_iff mapped staged hx' hr' hlt').mpr
      ⟨stretch, hstretch, hin'⟩
    rw [Region.protects_iff] at first last
    omega
  · intro hin
    rw [mapped.inHandler_iff hx' hr' hn, ← hpath] at hin
    -- The instruction is in this very handler, or in one around it.
    obtain he | outside := List.suffix_cons_iff.mp hin
    · left
      obtain rfl : stage' = stage := staged.stage_unique (staged.closed _ hx') hs he
      obtain rfl := h.drawn.stop_unique hx hx'
      rw [hr] at hr'
      exact (Option.some.inj hr').symm
    · right
      obtain ⟨⟨m, hm, hlt, hin⟩, m', hm', hlt', hin'⟩ := h.drawn.around hx hr outside
      have first := (mapped.inHandler_iff hx' hr' hlt).mpr hin
      have last := (mapped.inHandler_iff hx' hr' hlt').mpr hin'
      rw [Region.inHandler_iff] at first last
      omega

end Chart.Plan

/-! ## Routines -/

section Routines

variable {steps : List BuildStep} {table : Table} {settings : Settings} {routine : Routine}
  {file : String} {site : Option String} {nextSite next : SiteId} {body : Body}

/-- **A `finally` handler is left by `endFinally`**, by an exception or to the exit: all other
branches in it stay in it. -/
theorem finally_of_compileRoutine (hg : Graph.build steps = .ok routine.graph)
    (h : compileRoutine table settings routine file site nextSite = (.ok body, next)) :
    ∀ region ∈ body.regions, region.isFinally = true →
      ∀ n i t, body.code[n]? = some i → i.target? = some t → region.inHandler n = true →
        region.inHandler t = true ∨ i = .leave t ∧ (Graph.exit, t) ∈ body.blockOffsets := by
  intro region hr hf n i t hi ht hn
  obtain ⟨env, -, c, plan⟩ := exists_plan_of_compileRoutine hg h
  exact plan.keeps hr hf hi ht hn

/-- A `finally` handler with a `try` of its own, whose body goes on at the exit. -/
def exitInFinally : List BuildStep := [
  .addBlocks 6,
  .connect 0 (.tryCatch 2 [] (some 3) 7),
  .connect 2 (.jump 7),
  .connect 3 (.tryCatch 4 [⟨⟨"Exception"⟩, none, 5⟩] none 6),
  .connect 4 (.jump 1),
  .connect 5 (.jump 6),
  .connect 6 (.jump 7),
  .connect 7 (.jump 1)]

theorem finally_of_compileRoutine_exitInFinally :
    ∃ body, compileGraph exitInFinally = some body ∧
      ∃ region ∈ body.regions, region.isFinally = true ∧
        ∃ i t, body.code[3]? = some i ∧ i.target? = some t ∧ region.inHandler 3 = true ∧
          (region.inHandler t = true ∨ i = .leave t ∧ (Graph.exit, t) ∈ body.blockOffsets) := by
  have stays : (compileGraph exitInFinally).map (fun body => body.regions.any fun region =>
      region.isFinally && region.inHandler 3 && (body.code[3]?.bind (·.target?)).isSome) =
        some true := by decide +kernel
  obtain ⟨body, hbody, stays⟩ := Option.map_eq_some_iff.mp stays
  obtain ⟨region, hr, stays⟩ := List.any_eq_true.mp stays
  simp only [Bool.and_eq_true, Option.isSome_iff_exists] at stays
  obtain ⟨⟨hf, hn⟩, t, target⟩ := stays
  obtain ⟨i, hi, ht⟩ := Option.bind_eq_some_iff.mp target
  obtain ⟨routine, hg, next, h⟩ := exists_routine_of_compileGraph hbody
  exact ⟨body, hbody, region, hr, hf, i, t, hi, ht, hn,
    finally_of_compileRoutine hg h region hr hf 3 i t hi ht hn⟩

/-- The `leave` to the exit goes out of the handler. -/
theorem exists_leave_of_finally :
    ∃ body, compileGraph exitInFinally = some body ∧
      ∃ region ∈ body.regions, region.isFinally = true ∧
        ∃ n i t, body.code[n]? = some i ∧ i.target? = some t ∧
          region.inHandler n = true ∧ region.inHandler t = false := by
  have left : (compileGraph exitInFinally).map (fun body => body.regions.any fun region =>
      region.isFinally && region.inHandler 1 && !region.inHandler 5 &&
        (body.code[1]?.bind (·.target?) == some 5)) = some true := by decide +kernel
  obtain ⟨body, hbody, left⟩ := Option.map_eq_some_iff.mp left
  obtain ⟨region, hr, left⟩ := List.any_eq_true.mp left
  simp only [Bool.and_eq_true, Bool.not_eq_true', beq_iff_eq] at left
  obtain ⟨⟨⟨hf, hn⟩, ht⟩, target⟩ := left
  obtain ⟨i, hi, htarget⟩ := Option.bind_eq_some_iff.mp target
  exact ⟨body, hbody, region, hr, hf, 1, i, 5, hi, htarget, hn, ht⟩

/-- **Only a `leave` crosses the ends of regions**, and only outwards, but that any branch may go to
the first instruction of protected code; and `finally` handlers end outside all parts in them. -/
theorem fences_of_compileRoutine (hg : Graph.build steps = .ok routine.graph)
    (h : compileRoutine table settings routine file site nextSite = (.ok body, next)) :
    (∀ region ∈ body.regions, body.Fences region) ∧
      ∀ n, body.code[n]? = some .endFinally → body.EndsFinally n := by
  obtain ⟨env, -, c, plan⟩ := exists_plan_of_compileRoutine hg h
  constructor
  · intro region hr
    exact plan.fences hr
  · intro n hi
    exact plan.ends hi

theorem fences_of_compileRoutine_exitInFinally :
    ∃ body, compileGraph exitInFinally = some body ∧ (∃ region ∈ body.regions, body.Fences region) ∧
      body.code[4]? = some .endFinally ∧ body.EndsFinally 4 := by
  have written : (compileGraph exitInFinally).map (fun body => !body.regions.isEmpty &&
      (body.code[4]?.map fun i => i.isTransfer && i.target?.isNone && i.pops == 0) == some true) =
        some true := by decide +kernel
  obtain ⟨body, hbody, written⟩ := Option.map_eq_some_iff.mp written
  simp only [Bool.and_eq_true, Bool.not_eq_true', beq_iff_eq, Option.map_eq_some_iff,
    Option.isNone_iff_eq_none] at written
  obtain ⟨hregions, i, hi, ⟨htransfer, htarget⟩, hpops⟩ := written
  -- No other transfer goes nowhere and takes nothing.
  have ends : i = .endFinally := by
    cases i <;>
      first
      | rfl
      | exact (Bool.false_ne_true htransfer).elim
      | exact (Option.some_ne_none _ htarget).elim
      | exact (Nat.succ_ne_zero _ hpops).elim
  subst ends
  obtain ⟨routine, hg, next, h⟩ := exists_routine_of_compileGraph hbody
  obtain ⟨fences, ends⟩ := fences_of_compileRoutine hg h
  have nonempty : body.regions ≠ [] := by
    intro hnil
    rw [hnil] at hregions
    cases hregions
  obtain ⟨region, mem⟩ := List.exists_mem_of_ne_nil _ nonempty
  exact ⟨body, hbody, ⟨region, mem, fences region mem⟩, hi, ends 4 hi⟩

/-- A loop around a `try`. -/
def loopedTry : List BuildStep := [
  .addBlocks 4,
  .connect 0 (.jump 2),
  .connect 2 (.tryCatch 3 [⟨⟨"Exception"⟩, none, 4⟩] none 5),
  .connect 3 (.jump 5),
  .connect 4 (.jump 5),
  .connect 5 (.branch (.literal .null) 2 1)]

/-- The jump of the loop goes into the protected code, from outside. -/
theorem exists_jump_into_try :
    ∃ body, compileGraph loopedTry = some body ∧
      ∃ region ∈ body.regions, ∃ n i t, body.code[n]? = some i ∧ i.target? = some t ∧
        region.protects n = false ∧ region.protects t = true := by
  have enters : (compileGraph loopedTry).map (fun body => body.regions.any fun region =>
      !region.protects 5 && region.protects 0 &&
        (body.code[5]?.bind (·.target?) == some 0)) = some true := by decide +kernel
  obtain ⟨body, hbody, enters⟩ := Option.map_eq_some_iff.mp enters
  obtain ⟨region, hr, enters⟩ := List.any_eq_true.mp enters
  simp only [Bool.and_eq_true, Bool.not_eq_true', beq_iff_eq] at enters
  obtain ⟨⟨hn, ht⟩, target⟩ := enters
  obtain ⟨i, hi, htarget⟩ := Option.bind_eq_some_iff.mp target
  exact ⟨body, hbody, region, hr, 5, i, 0, hi, htarget, hn, ht⟩

end Routines

end StackScript
