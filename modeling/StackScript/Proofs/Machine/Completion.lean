import StackScript.Proofs.Layout.Crossing
import StackScript.Proofs.Machine.Moves

/-!
# Completions and their handlers

The completions of a frame wait on one list, and a `finally` handler that is abandoned leaves its
completion there. In a run in which no handler goes on that abandoned ones are inside of, the
completions on the list are those of the handlers that are running, one for one: the end of a
handler takes up what the handler was entered with.

## Main definitions

* `Body.running`, `Body.staying`: the `finally` handlers around an instruction, and behind it
* `Body.Tears`: a move that abandons some of the handlers, and stays in others
* `Body.Entered`: a handler has been running since it was entered with a completion
* `Body.Matched`: every handler that is running was entered with its completion

## Main results

* `Body.Matched.goes`: moves that do not tear keep handlers and completions matched
* `Body.Matched.resumes`: the end of a handler takes up what the handler was entered with
-/

namespace StackScript

/-- Parts of a list without repetitions that have the same elements are the same. -/
theorem sublist_ext {α : Type} {all xs ys : List α} (hall : all.Nodup) (hx : xs.Sublist all)
    (hy : ys.Sublist all) (h : ∀ a, a ∈ xs ↔ a ∈ ys) : xs = ys := by
  induction hx generalizing ys with
  | slnil => exact (List.sublist_nil.mp hy).symm
  | cons a hx ih =>
    obtain ⟨ha, hall⟩ := List.nodup_cons.mp hall
    cases hy with
    | cons _ hy => exact ih hall hy h
    | cons_cons _ hy => exact (ha (hx.subset ((h a).mpr List.mem_cons_self))).elim
  | cons_cons a hx ih =>
    obtain ⟨ha, hall⟩ := List.nodup_cons.mp hall
    cases hy with
    | cons _ hy => exact (ha (hy.subset ((h a).mp List.mem_cons_self))).elim
    | cons_cons _ hy =>
      refine congrArg _ (ih hall hy fun b => ?_)
      have same := h b
      by_cases hb : b = a
      · subst hb
        exact ⟨fun hm => (ha (hx.subset hm)).elim, fun hm => (ha (hy.subset hm)).elim⟩
      · simpa only [List.mem_cons, hb, false_or] using same

namespace Body

/-! ## Handlers that are running -/

/-- The `finally` handlers that an instruction is in, the inner ones first. -/
def running (body : Body) (n : Nat) : List Region :=
  body.regions.filter fun region => region.isFinally && region.inHandler n

/-- The handlers that are running behind the frame's instruction, if control stays in them. The
end of a handler is the end of the innermost one. -/
def staying (body : Body) (frame : Frame) : List Region :=
  if body.endsAt frame.pc then (body.running frame.pc).tail else body.running frame.pc

/-- A move tears the handlers that are running if it goes out of some and stays in others. -/
def Tears (body : Body) (frame after : Frame) : Prop :=
  (∃ region ∈ body.staying frame, region.inHandler after.pc = false) ∧
    ∃ region ∈ body.staying frame, region.inHandler after.pc = true

instance (body : Body) (frame after : Frame) : Decidable (body.Tears frame after) :=
  inferInstanceAs (Decidable (_ ∧ _))

/-- The handler of a region has been running since it was entered with a completion, which was put
before those that waited. The frames are those of a run, the latest first. -/
def Entered (body : Body) (region : Region) (completion : Completion)
    (waiting : List Completion) (history : List Frame) : Prop :=
  ∃ inside entry before outside, history = inside ++ entry :: before :: outside ∧
    (∀ frame ∈ inside, region.inHandler frame.pc = true) ∧
    entry.pc = region.handlerStart ∧ region.inHandler before.pc = false ∧
    entry.pending = completion :: waiting ∧ waiting = body.waiting before

variable {body : Body} {frame after : Frame} {history : List Frame} {region other : Region}
  {n t : Nat}

theorem mem_running :
    region ∈ body.running n ↔
      region ∈ body.regions ∧ region.isFinally = true ∧ region.inHandler n = true := by
  simp only [running, List.mem_filter, Bool.and_eq_true]

theorem staying_sublist : (body.staying frame).Sublist (body.running frame.pc) := by
  unfold staying
  split
  · exact List.tail_sublist _
  · exact List.Sublist.refl _

/-- A handler that an instruction is in stays, but for the one that ends there. -/
theorem mem_staying (h : region ∈ body.running frame.pc)
    (hne : body.code[frame.pc]? = some .endFinally →
      ∀ other rest, body.running frame.pc = other :: rest → region ≠ other) :
    region ∈ body.staying frame := by
  unfold staying
  split
  case isFalse => exact h
  case isTrue hends =>
    cases hrunning : body.running frame.pc with
    | nil =>
      rw [hrunning] at h
      cases h
    | cons other rest =>
      rw [hrunning] at h
      exact (List.mem_cons.mp h).resolve_left (hne (endsAt_iff.mp hends) other rest hrunning)

theorem mem_staying_of_ne (hne : body.code[frame.pc]? ≠ some .endFinally)
    (h : region ∈ body.running frame.pc) : region ∈ body.staying frame :=
  mem_staying h fun he => (hne he).elim

/-! ## Completions that wait -/

/-- The way of a `leave` to its target, by the `finally` handlers that are still to run. -/
structure Way (body : Body) (n t : Nat) (regions : List Region) : Prop where
  comes : body.ComesTo n
  branch : body.code[n]? = some (.leave t)
  outward : regions.Pairwise body.Outward
  crossed : ∀ region ∈ regions, region ∈ body.regions ∧ region.isFinally = true ∧
    region.protects n = true ∧ region.protects t = false

theorem Way.tail {regions : List Region} (h : body.Way n t (region :: regions)) :
    body.Way n t regions :=
  ⟨h.comes, h.branch, h.outward.of_cons, fun other ho => h.crossed other (List.mem_cons_of_mem _ ho)⟩

/-- The completion goes on where the way of its `leave` does behind the handler. -/
def Suits (body : Body) (region : Region) : Completion → Prop
  | .leave t remaining =>
    ∃ n regions, body.Way n t (region :: regions) ∧ remaining = regions.map (·.handlerStart)
  | .rethrow _ => True

/-- The handlers were entered with the first of the completions, one for one. -/
inductive Kept (body : Body) (history : List Frame) : List Region → List Completion → Prop where
  | nil {waiting} : Kept body history [] waiting
  | cons {region regions completion waiting} :
      body.Entered region completion waiting history → body.Suits region completion →
      Kept body history regions waiting →
      Kept body history (region :: regions) (completion :: waiting)

/-- Every handler that is running was entered with its completion. -/
structure Matched (body : Body) (frame : Frame) (history : List Frame) : Prop where
  comes : body.ComesTo frame.pc
  kept : body.Kept (frame :: history) (body.running frame.pc) frame.pending

/-- How the regions of a body lie, and how control crosses their ends. -/
structure Orderly (body : Body) : Prop where
  nested : body.Nested
  fences : ∀ region ∈ body.regions, body.Fences region
  ends : ∀ n, body.code[n]? = some .endFinally → body.EndsFinally n

theorem Entered.later {completion : Completion} {waiting : List Completion}
    (h : body.Entered region completion waiting history)
    (hin : region.inHandler after.pc = true) :
    body.Entered region completion waiting (after :: history) := by
  obtain ⟨inside, entry, before, outside, rfl, within, rest⟩ := h
  exact ⟨after :: inside, entry, before, outside, rfl, List.forall_mem_cons.mpr ⟨hin, within⟩, rest⟩

/-- Handlers that control stays in keep their completions. -/
theorem Kept.later {regions : List Region} {waiting : List Completion}
    (h : body.Kept history regions waiting)
    (hin : ∀ region ∈ regions, region.inHandler after.pc = true) :
    body.Kept (after :: history) regions waiting := by
  induction h with
  | nil => exact .nil
  | cons entered suits _ ih =>
    obtain ⟨first, hin⟩ := List.forall_mem_cons.mp hin
    exact .cons (entered.later first) suits (ih hin)

/-- Behind the instruction the handlers that stay have their completions. -/
theorem Matched.staying (h : body.Matched frame history) :
    body.Kept (frame :: history) (body.staying frame) (body.waiting frame) := by
  have kept := h.kept
  unfold Body.staying Body.waiting
  split
  · cases hrunning : body.running frame.pc with
    | nil => exact .nil
    | cons =>
      rw [hrunning] at kept
      cases hpending : frame.pending with
      | nil =>
        rw [hpending] at kept
        cases kept
      | cons =>
        rw [hpending] at kept
        cases kept with
        | cons _ _ kept => exact kept
  · exact kept

/-! ## Moves of an orderly body -/

namespace Orderly

theorem inHandler_start (hb : body.Orderly) (hr : region ∈ body.regions) :
    region.inHandler region.handlerStart = true := by
  obtain ⟨-, -, handler⟩ := hb.nested.bounds region hr
  exact Region.inHandler_iff.mpr ⟨Nat.le_refl _, handler⟩

/-- What a region protects is not in its handler. -/
theorem not_inHandler (hb : body.Orderly) (hr : region ∈ body.regions)
    (hn : region.protects n = true) : region.inHandler n = false := by
  obtain ⟨-, tryEnd, -⟩ := hb.nested.bounds region hr
  rw [Region.protects_iff] at hn
  rw [← Bool.not_eq_true, Region.inHandler_iff]
  omega

theorem nodup (hb : body.Orderly) : body.regions.Nodup := by
  refine hb.nested.outward.imp_of_mem fun {inner outer} hi _ outward he => ?_
  subst he
  have before := outward.before
  rw [hb.inHandler_start hi] at before
  cases before

/-- A body starts outside all handlers. -/
theorem running_start (hb : body.Orderly) : body.running 0 = [] := by
  unfold running
  rw [List.filter_eq_nil_iff]
  intro region hr hin
  obtain ⟨front, -, -⟩ := hb.nested.bounds region hr
  have first := Region.inHandler_iff.mp (Bool.and_eq_true _ _ ▸ hin).2
  omega

/-- The handler of a region is the innermost at its start. -/
theorem running_handler (hb : body.Orderly) (hr : region ∈ body.regions)
    (hf : region.isFinally = true) :
    ∃ around, body.running region.handlerStart = region :: around ∧ region ∉ around := by
  obtain ⟨front, back, hregions⟩ := List.append_of_mem hr
  have first : front.filter (fun other => other.isFinally && other.inHandler region.handlerStart) =
      [] := by
    rw [List.filter_eq_nil_iff]
    intro other ho
    have outward := hb.nested.outward
    rw [hregions] at outward
    have before := ((List.pairwise_append.mp outward).2.2 other ho region List.mem_cons_self).before
    rw [before, Bool.and_false]
    exact Bool.false_ne_true
  have running : body.running region.handlerStart = region :: back.filter
      (fun other => other.isFinally && other.inHandler region.handlerStart) := by
    unfold running
    rw [hregions, List.filter_append, first, List.nil_append, List.filter_cons_of_pos]
    rw [hf, hb.inHandler_start hr]
    rfl
  have nodup : (body.running region.handlerStart).Nodup := hb.nodup.sublist List.filter_sublist
  rw [running] at nodup
  exact ⟨_, running, (List.nodup_cons.mp nodup).1⟩

/-- The handler that an `endFinally` ends is the innermost one around it. -/
theorem running_ends (hb : body.Orderly) (hi : body.code[n]? = some .endFinally) :
    ∃ region around, body.running n = region :: around ∧
      ∀ other ∈ body.regions, other.protects n = true →
        other.tryStart < region.handlerStart ∧ region.handlerEnd ≤ other.tryEnd := by
  obtain ⟨region, hr, hf, hin, hothers⟩ := hb.ends n hi
  have mem : region ∈ body.running n := mem_running.mpr ⟨hr, hf, hin⟩
  cases hrunning : body.running n with
  | nil =>
    rw [hrunning] at mem
    cases mem
  | cons first around =>
    rw [hrunning] at mem
    have same : region = first := by
      refine (List.mem_cons.mp mem).resolve_right fun hmem => ?_
      -- A handler that comes first in the table does not start around another one.
      have outward : (first :: around).Pairwise body.Outward :=
        hrunning ▸ hb.nested.outward.sublist List.filter_sublist
      have apart := (List.rel_of_pairwise_cons outward hmem).before
      have firstMem : first ∈ body.running n := hrunning ▸ List.mem_cons_self
      obtain ⟨hfirst, -, hinFirst⟩ := mem_running.mp firstMem
      obtain rfl | ⟨hstart, hstop⟩ := (hothers first hfirst).2 hinFirst
      · rw [hb.inHandler_start hr] at apart
        cases apart
      · obtain ⟨-, -, handler⟩ := hb.nested.bounds region hr
        rw [← Bool.not_eq_true, Region.inHandler_iff] at apart
        omega
    subst same
    exact ⟨region, around, rfl, fun other hother => (hothers other hother).1⟩

/-- The way of a `leave` that starts. -/
theorem exists_way (hb : body.Orderly) (hn : body.ComesTo n)
    (hi : body.code[n]? = some (.leave t)) :
    ∃ regions, body.Way n t regions ∧ body.crossed n t = regions.map (·.handlerStart) := by
  refine ⟨_, ⟨hn, hi, hb.nested.outward.sublist List.filter_sublist, fun region hr => ?_⟩, rfl⟩
  simpa only [List.mem_filter, Bool.and_eq_true, Bool.not_eq_true', and_assoc] using hr

/-- Control falls into no handler. -/
theorem staying_next (hb : body.Orderly) (hcomes : body.ComesTo frame.pc) {i : Instruction}
    (hi : body.code[frame.pc]? = some i) (ht : i.isTransfer = false)
    (h : region ∈ body.running (frame.pc + 1)) : region ∈ body.staying frame := by
  obtain ⟨hr, hf, hin⟩ := mem_running.mp h
  have ne : body.code[frame.pc]? ≠ some .endFinally := by
    rw [hi]
    rintro ⟨⟩
    cases ht
  refine mem_staying_of_ne ne (mem_running.mpr ⟨hr, hf, ?_⟩)
  obtain ⟨-, handler, -⟩ := (hb.fences region hr).fall hcomes hi ht
  rw [Region.inHandler_iff] at hin ⊢
  omega

/-- No branch goes into a handler. -/
theorem staying_branch (hb : body.Orderly) {i : Instruction}
    (hi : body.code[frame.pc]? = some i) (ht : i.target? = some t)
    (h : region ∈ body.running t) : region ∈ body.staying frame := by
  obtain ⟨hr, hf, hin⟩ := mem_running.mp h
  have ne : body.code[frame.pc]? ≠ some .endFinally := by
    rw [hi]
    rintro ⟨⟩
    cases ht
  exact mem_staying_of_ne ne
    (mem_running.mpr ⟨hr, hf, (hb.fences region hr).intoHandler hi ht hin⟩)

/-- The handlers that a handler on the way of a `leave` starts in are around the `leave`. -/
theorem staying_crossed (hb : body.Orderly) (hi : body.code[frame.pc]? = some (.leave t))
    (hr : region ∈ body.regions) (hp : region.protects frame.pc = true)
    (h : other ∈ body.running region.handlerStart) (hne : other ≠ region) :
    other ∈ body.staying frame := by
  obtain ⟨hother, hf, hin⟩ := mem_running.mp h
  have ne : body.code[frame.pc]? ≠ some .endFinally := by
    rw [hi]
    nofun
  exact mem_staying_of_ne ne
    (mem_running.mpr ⟨hother, hf, hb.nested.around region hr other hother hne hin _ hp⟩)

/-- What goes on where a value is thrown is around its handler, and is not the handler that ends
there. -/
theorem staying_raised (hb : body.Orderly) (hr : region ∈ body.regions)
    (hp : region.protects frame.pc = true) (h : other ∈ body.running region.handlerStart)
    (hne : other ≠ region) : other ∈ body.staying frame := by
  obtain ⟨hother, hf, hin⟩ := mem_running.mp h
  have inside := hb.nested.around region hr other hother hne hin _ hp
  refine mem_staying (mem_running.mpr ⟨hother, hf, inside⟩) fun hi first rest he => ?_
  obtain ⟨ended, around, hrunning, outer⟩ := hb.running_ends hi
  rw [hrunning] at he
  obtain ⟨rfl, -⟩ := List.cons.inj he
  rintro rfl
  obtain ⟨-, tryEnd, -⟩ := hb.nested.bounds region hr
  have := outer region hr hp
  rw [Region.inHandler_iff] at hin
  omega

end Orderly

/-- Handlers that control stays in are all of those that were running, if the move does not tear
them. -/
theorem Matched.kept_of (hb : body.Orderly) (h : body.Matched frame history)
    (ht : ¬ body.Tears frame after) {regions : List Region}
    (hregions : regions.Sublist body.regions) (hsub : ∀ region ∈ regions, region ∈ body.staying frame)
    (hin : ∀ region ∈ body.staying frame, region.inHandler after.pc = true ↔ region ∈ regions) :
    body.Kept (after :: frame :: history) regions (body.waiting frame) := by
  cases hnil : regions with
  | nil => exact .nil
  | cons kept rest =>
    have mem : kept ∈ regions := hnil ▸ List.mem_cons_self
    -- One of them is kept, so that none is left.
    have all : ∀ region ∈ body.staying frame, region.inHandler after.pc = true := by
      intro region hr
      by_contra hout
      rw [Bool.not_eq_true] at hout
      exact ht ⟨⟨region, hr, hout⟩, kept, hsub kept mem, (hin kept (hsub kept mem)).mpr mem⟩
    have same : regions = body.staying frame :=
      sublist_ext hb.nodup hregions (staying_sublist.trans List.filter_sublist) fun region =>
        ⟨hsub region, fun hr => (hin region hr).mp (all region hr)⟩
    rw [← hnil, same]
    exact h.staying.later all

/-- Control goes on without a new completion. -/
theorem Matched.goes_on (hb : body.Orderly) (h : body.Matched frame history)
    (ht : ¬ body.Tears frame after) (hcomes : body.ComesTo after.pc)
    (hpending : after.pending = body.waiting frame)
    (hsub : ∀ region ∈ body.running after.pc, region ∈ body.staying frame) :
    body.Matched after (frame :: history) := by
  refine ⟨hcomes, ?_⟩
  rw [hpending]
  refine h.kept_of hb ht List.filter_sublist hsub fun region hr => ?_
  have running := mem_running.mp (staying_sublist.subset hr)
  rw [mem_running]
  exact ⟨fun hin => ⟨running.1, running.2.1, hin⟩, fun hin => hin.2.2⟩

/-- Control starts a `finally` handler with a completion. -/
theorem Matched.enters (hb : body.Orderly) (h : body.Matched frame history)
    (ht : ¬ body.Tears frame after) (hr : region ∈ body.regions) (hf : region.isFinally = true)
    (hpc : after.pc = region.handlerStart) {completion : Completion}
    (hpending : after.pending = completion :: body.waiting frame)
    (hsuits : body.Suits region completion) (hout : region.inHandler frame.pc = false)
    (hsub : ∀ other ∈ body.running after.pc, other ≠ region → other ∈ body.staying frame) :
    body.Matched after (frame :: history) := by
  refine ⟨hpc ▸ .handler hr, ?_⟩
  obtain ⟨around, hrunning, hnot⟩ := hb.running_handler hr hf
  rw [hpc] at hsub
  have entered : body.Entered region completion (body.waiting frame) (after :: frame :: history) :=
    ⟨[], after, frame, history, rfl, List.forall_mem_nil _, hpc, hout, hpending, rfl⟩
  have sublist : (region :: around).Sublist body.regions := hrunning ▸ List.filter_sublist
  rw [hpending, hpc, hrunning]
  refine .cons entered hsuits (h.kept_of hb ht (List.sublist_of_cons_sublist sublist) ?_ ?_)
  · intro other ho
    refine hsub other (hrunning ▸ List.mem_cons_of_mem _ ho) ?_
    rintro rfl
    exact hnot ho
  · intro other ho
    have running := mem_running.mp (staying_sublist.subset ho)
    have ne : other ≠ region := by
      rintro rfl
      rw [running.2.2] at hout
      cases hout
    rw [hpc]
    constructor
    · intro hin
      have mem : other ∈ region :: around := hrunning ▸ mem_running.mpr ⟨running.1, running.2.1, hin⟩
      exact (List.mem_cons.mp mem).resolve_left ne
    · intro hin
      have mem : other ∈ body.running region.handlerStart := hrunning ▸ List.mem_cons_of_mem _ hin
      exact (mem_running.mp mem).2.2

/-! ## Moves -/

/-- The completion of a `leave` that goes on, to the next handler on its way or to its target. -/
theorem Matched.completes (hb : body.Orderly) (h : body.Matched frame history)
    (ht : ¬ body.Tears frame after) {waits : Frame} {regions : List Region}
    (way : body.Way n t regions) (hafter : after = complete waits t (regions.map (·.handlerStart)))
    (hwaits : waits.pending = body.waiting frame)
    (hout : ∀ region ∈ regions, region.inHandler frame.pc = false)
    (hsub : ∀ other ∈ body.running after.pc, other ∉ regions.head? → other ∈ body.staying frame) :
    body.Matched after (frame :: history) := by
  subst hafter
  cases regions with
  | nil =>
    refine h.goes_on hb ht (.branch way.comes way.branch rfl) hwaits fun other ho => ?_
    exact hsub other ho (Option.not_mem_none _)
  | cons region rest =>
    obtain ⟨hr, hf, -, -⟩ := way.crossed region List.mem_cons_self
    refine h.enters hb ht hr hf rfl (congrArg _ hwaits) ⟨n, rest, way, rfl⟩
      (hout region List.mem_cons_self) fun other ho hne => ?_
    exact hsub other ho fun he => hne (Option.some.inj he).symm

/-- A `leave` sets out. -/
theorem Matched.leave (hb : body.Orderly) (h : body.Matched frame history)
    (ht : ¬ body.Tears frame after) (hi : body.code[frame.pc]? = some (.leave t))
    (hafter : after = complete { frame with stack := [] } t (body.crossed frame.pc t)) :
    body.Matched after (frame :: history) := by
  have ne : body.code[frame.pc]? ≠ some .endFinally := by
    rw [hi]
    nofun
  obtain ⟨regions, way, hcrossed⟩ := hb.exists_way h.comes hi
  rw [hcrossed] at hafter
  refine h.completes hb ht way hafter (waiting_of_ne ne).symm ?_ ?_
  · intro region hr
    obtain ⟨hr, -, hprotects, -⟩ := way.crossed region hr
    exact hb.not_inHandler hr hprotects
  · intro other ho hne
    rw [hafter] at ho
    cases regions with
    | nil => exact hb.staying_branch hi rfl ho
    | cons region rest =>
      obtain ⟨hr, -, hprotects, -⟩ := way.crossed region List.mem_cons_self
      exact hb.staying_crossed hi hr hprotects ho fun he => hne (congrArg some he.symm)

/-- The end of a handler goes on with the `leave` that it was entered with. -/
theorem Matched.ends (hb : body.Orderly) (h : body.Matched frame history)
    (ht : ¬ body.Tears frame after) {remaining : List Nat} {rest : List Completion}
    (hi : body.code[frame.pc]? = some .endFinally)
    (hpending : frame.pending = .leave t remaining :: rest)
    (hafter : after = complete { frame with pending := rest } t remaining) :
    body.Matched after (frame :: history) := by
  obtain ⟨ended, around, hrunning, -⟩ := hb.running_ends hi
  have kept := h.kept
  rw [hrunning, hpending] at kept
  -- The handler that ends is the innermost that runs, so it has the completion that is taken up.
  cases kept with
  | cons entered suits _ =>
    obtain ⟨n, regions, way, rfl⟩ := suits
    obtain ⟨outward, -⟩ := List.pairwise_cons.mp way.outward
    obtain ⟨hended, -, hn, hleft⟩ := way.crossed ended List.mem_cons_self
    have hin : ended.inHandler frame.pc = true :=
      (mem_running.mp (hrunning ▸ List.mem_cons_self)).2.2
    have hwaits : rest = body.waiting frame := by
      rw [waiting_of_ends hi, hpending, List.tail_cons]
    refine h.completes hb ht way.tail hafter hwaits ?_ ?_
    · intro region hr
      obtain ⟨-, -, hprotects, -⟩ := way.tail.crossed region hr
      exact (outward region hr).apart hn hprotects hin
    · intro other ho hne
      obtain ⟨hother, hf, hinOther⟩ := mem_running.mp ho
      rw [hafter] at hinOther
      -- A handler that the frame is in behind the move is one that it has been in all along.
      have stays : other.inHandler frame.pc = true ∧ other ≠ ended := by
        cases regions with
        | nil =>
          have inside := (hb.fences other hother).intoHandler way.branch rfl hinOther
          refine ⟨hb.nested.beyond ended hended other hother hf hn hleft inside hinOther _ hin, ?_⟩
          rintro rfl
          rw [hb.not_inHandler hother hn] at inside
          cases inside
        | cons region rest =>
          obtain ⟨-, -, hprotects, -⟩ := way.tail.crossed region List.mem_cons_self
          have apart := outward region List.mem_cons_self
          refine ⟨apart.around hn hprotects hin other hother
            (fun he => hne (congrArg some he.symm)) hinOther, ?_⟩
          rintro rfl
          have before := apart.before
          rw [show other.inHandler region.handlerStart = true from hinOther] at before
          cases before
      refine mem_staying (mem_running.mpr ⟨hother, hf, stays.1⟩) fun _ first rest he => ?_
      rw [hrunning] at he
      exact (List.cons.inj he).1 ▸ stays.2

/-- A thrown value comes to its handler. -/
theorem Matched.raised (hb : body.Orderly) (h : body.Matched frame history)
    (ht : ¬ body.Tears frame after) {thrown : Frame} {value : Value}
    (hpending : thrown.pending = body.waiting frame)
    (hr : region ∈ body.regions) (hprotects : region.protects frame.pc = true)
    (hafter : after = enterHandler thrown region value) :
    body.Matched after (frame :: history) := by
  have stays : ∀ other ∈ body.running region.handlerStart, other ≠ region →
      other ∈ body.staying frame := fun _ ho hne => hb.staying_raised hr hprotects ho hne
  subst hafter
  cases hkind : region.kind with
  | «catch» type =>
    have hafter : enterHandler thrown region value =
        { thrown with pc := region.handlerStart, stack := [.value value] } := by
      unfold enterHandler
      rw [hkind]
    rw [hafter] at ht ⊢
    refine h.goes_on hb ht (.handler hr) hpending fun other ho => stays other ho ?_
    rintro rfl
    have hf := (mem_running.mp ho).2.1
    rw [Region.isFinally_iff, hkind] at hf
    cases hf
  | «finally» =>
    have hafter : enterHandler thrown region value =
        { thrown with
          pc := region.handlerStart
          stack := []
          pending := .rethrow value :: thrown.pending } := by
      unfold enterHandler
      rw [hkind]
    rw [hafter] at ht ⊢
    exact h.enters hb ht hr (Region.isFinally_iff.mpr hkind) rfl (congrArg _ hpending) trivial
      (hb.not_inHandler hr hprotects) stays

/-- **A move that does not tear** keeps handlers and completions matched. -/
theorem Matched.goes (hb : body.Orderly) (h : body.Matched frame history)
    (hm : body.Move frame after) (ht : ¬ body.Tears frame after) :
    body.Matched after (frame :: history) := by
  cases hm with
  | @next i _ hi transfer hpc hpending =>
    have ne : body.code[frame.pc]? ≠ some .endFinally := by
      rw [hi]
      rintro ⟨⟩
      cases transfer
    refine h.goes_on hb ht (hpc ▸ .next h.comes hi transfer)
      (hpending.trans (waiting_of_ne ne).symm) fun region hr => ?_
    rw [hpc] at hr
    exact hb.staying_next h.comes hi transfer hr
  | @jump i t hi target hne hpc hpending =>
    have ne : body.code[frame.pc]? ≠ some .endFinally := by
      rw [hi]
      rintro ⟨⟩
      cases target
    refine h.goes_on hb ht (hpc ▸ .branch h.comes hi target)
      (hpending.trans (waiting_of_ne ne).symm) fun region hr => ?_
    rw [hpc] at hr
    exact hb.staying_branch hi target hr
  | leave hi hafter => exact h.leave hb ht hi hafter
  | ends hi hpending hafter => exact h.ends hb ht hi hpending hafter
  | raised hpending hr hprotects hafter => exact h.raised hb ht hpending hr hprotects hafter

/-! ## Runs -/

/-- A run starts outside all handlers. -/
theorem matched_enter (hb : body.Orderly) {receiver : Option Value} {args : List FrameArg} :
    body.Matched (.enter body receiver args) [] := by
  refine ⟨.first, ?_⟩
  show body.Kept _ (body.running 0) _
  rw [hb.running_start]
  exact .nil

/-- **A run whose moves do not tear** keeps handlers and completions matched. -/
theorem Runs.matched (hb : body.Orderly) (h : body.Runs (frame :: history))
    (ht : (frame :: history).IsChain fun after before => ¬ body.Tears before after) :
    body.Matched frame history := by
  induction history generalizing frame with
  | nil =>
    cases h
    exact matched_enter hb
  | cons before history ih =>
    obtain ⟨kept, ht⟩ := List.isChain_cons_cons.mp ht
    cases h with
    | goes h hgoes => exact (ih h ht).goes hb hgoes.move kept

/-- The end of a handler takes up the completion that the handler was entered with. -/
def Resumes (body : Body) (frame : Frame) (history : List Frame) : Prop :=
  ∃ region around completion waiting, body.running frame.pc = region :: around ∧
    body.Entered region completion waiting (frame :: history) ∧
    frame.pending = completion :: waiting ∧
    body.step frame = body.takeUp { frame with pending := waiting } completion

theorem Matched.resumes (hb : body.Orderly) (h : body.Matched frame history)
    (hi : body.code[frame.pc]? = some .endFinally) : body.Resumes frame history := by
  obtain ⟨region, around, hrunning, -⟩ := hb.running_ends hi
  have kept := h.kept
  rw [hrunning] at kept
  cases hpending : frame.pending with
  | nil =>
    rw [hpending] at kept
    cases kept
  | cons completion waiting =>
    rw [hpending] at kept
    cases kept with
    | cons entered _ _ =>
      exact ⟨region, around, completion, waiting, hrunning, entered, hpending, step_of_ends hi hpending⟩

/-- The frames of a run of so many steps, as far as it asks for nothing. -/
def trace (body : Body) : Nat → List Frame
  | 0 => [.enter body none []]
  | n + 1 =>
    match body.trace n with
    | [] => []
    | frame :: history =>
      match body.step frame with
      | .running after => after :: frame :: history
      | _ => frame :: history

theorem runs_trace (body : Body) (n : Nat) : body.Runs (body.trace n) := by
  induction n with
  | zero => exact .enter
  | succ n ih =>
    unfold trace
    split
    case h_1 hnil =>
      rw [hnil] at ih
      cases ih
    case h_2 frame history hcons =>
      rw [hcons] at ih
      split
      case h_1 after hstep => exact .goes ih (.step hstep)
      case h_2 => exact ih

end Body

/-- The regions of a routine are orderly. -/
theorem Chart.Plan.orderly {env : LayoutEnv} {body : Body} {c : Chart} (h : c.Plan env body) :
    body.Orderly where
  nested := h.nested
  fences := fun _ hr => h.fences hr
  ends := fun _ hi => h.ends hi

/-! ## Routines -/

section Routines

variable {steps : List BuildStep} {table : Table} {settings : Settings} {routine : Routine}
  {file : String} {site : Option String} {nextSite next : SiteId} {body : Body}

/-- **The end of a `finally` handler takes up the completion that the handler was entered with**, in
every run in which no handler goes on that others were abandoned inside of. -/
theorem resumes_of_compileRoutine (hg : Graph.build steps = .ok routine.graph)
    (h : compileRoutine table settings routine file site nextSite = (.ok body, next)) :
    ∀ frame history, body.Runs (frame :: history) →
      ((frame :: history).IsChain fun after before => ¬ body.Tears before after) →
      body.code[frame.pc]? = some .endFinally → body.Resumes frame history := by
  intro frame history hruns ht hi
  obtain ⟨env, -, c, plan⟩ := exists_plan_of_compileRoutine hg h
  exact (hruns.matched plan.orderly ht).resumes plan.orderly hi

/-- A `finally` handler that handles an exception of its own. -/
def catchInFinally : List BuildStep := [
  .addBlocks 6,
  .connect 0 (.tryCatch 2 [] (some 3) 7),
  .connect 2 (.jump 7),
  .connect 3 (.tryCatch 4 [⟨⟨"Exception"⟩, none, 5⟩] none 6),
  .pushStatement 4 ⟨.throw (.literal (.string "x")), none⟩,
  .connect 4 (.jump 6),
  .connect 5 (.jump 6),
  .connect 6 (.jump 7),
  .connect 7 (.jump 1)]

theorem resumes_of_compileRoutine_catchInFinally :
    ∃ body, compileGraph catchInFinally = some body ∧
      ∃ frame history, body.Runs (frame :: history) ∧
        ((frame :: history).IsChain fun after before => ¬ body.Tears before after) ∧
        body.code[frame.pc]? = some .endFinally ∧ body.Resumes frame history := by
  have runs : (compileGraph catchInFinally).map (fun body =>
      (body.trace 5).head?.any (fun frame => body.endsAt frame.pc) &&
        decide ((body.trace 5).IsChain fun after before => ¬ body.Tears before after)) =
          some true := by decide +kernel
  obtain ⟨body, hbody, runs⟩ := Option.map_eq_some_iff.mp runs
  rw [Bool.and_eq_true, decide_eq_true_eq] at runs
  obtain ⟨hends, ht⟩ := runs
  have hruns := body.runs_trace 5
  obtain ⟨routine, hg, next, h⟩ := exists_routine_of_compileGraph hbody
  cases htrace : body.trace 5 with
  | nil =>
    rw [htrace] at hends
    cases hends
  | cons frame history =>
    rw [htrace] at hends ht hruns
    have hi := Body.endsAt_iff.mp hends
    exact ⟨body, hbody, frame, history, hruns, ht, hi,
      resumes_of_compileRoutine hg h frame history hruns ht hi⟩

/-- A `finally` handler that handles an exception which comes out of another one inside. -/
def throwInFinally : List BuildStep := [
  .addBlocks 9,
  .connect 0 (.tryCatch 2 [] (some 3) 10),
  .connect 2 (.jump 10),
  .connect 3 (.tryCatch 4 [⟨⟨"Exception"⟩, none, 8⟩] none 9),
  .connect 4 (.tryCatch 5 [] (some 6) 7),
  .connect 5 (.jump 7),
  .pushStatement 6 ⟨.throw (.literal (.string "x")), none⟩,
  .connect 6 (.jump 7),
  .connect 7 (.jump 9),
  .connect 8 (.jump 9),
  .connect 9 (.jump 10),
  .connect 10 (.jump 1)]

/-- The end of the outer handler takes up what the inner one was entered with. -/
theorem exists_stale_completion :
    ∃ body, compileGraph throwInFinally = some body ∧
      ∃ frame history, body.Runs (frame :: history) ∧ body.code[frame.pc]? = some .endFinally ∧
        ¬ body.Resumes frame history := by
  -- No frame at the start of the handler has as many completions as the one at its end.
  have stale : (compileGraph throwInFinally).map (fun body =>
      (body.trace 6).head?.any fun frame => body.endsAt frame.pc &&
        (body.running frame.pc).head?.any fun region => (body.trace 6).all fun entry =>
          entry.pc != region.handlerStart || entry.pending.length != frame.pending.length) =
            some true := by decide +kernel
  obtain ⟨body, hbody, stale⟩ := Option.map_eq_some_iff.mp stale
  have hruns := body.runs_trace 6
  cases htrace : body.trace 6 with
  | nil =>
    rw [htrace] at stale
    cases stale
  | cons frame history =>
    rw [htrace] at stale hruns
    simp only [List.head?_cons, Option.any_some, Bool.and_eq_true] at stale
    obtain ⟨hends, stale⟩ := stale
    refine ⟨body, hbody, frame, history, hruns, Body.endsAt_iff.mp hends, ?_⟩
    rintro ⟨region, around, completion, waiting, hrunning, entered, hpending, -⟩
    obtain ⟨inside, entry, before, outside, hsplit, -, hpc, -, hentry, -⟩ := entered
    rw [hrunning, List.head?_cons, Option.any_some, hsplit, List.all_append, List.all_cons,
      hpending, hentry, hpc] at stale
    simp at stale

end Routines

end StackScript
