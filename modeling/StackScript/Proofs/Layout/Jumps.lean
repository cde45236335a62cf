import StackScript.Proofs.Layout.Effects
import StackScript.Proofs.Layout.Handlers

/-!
# Where jumps go

A jump stays in the scopes that it stands in, a `leave` goes to scopes around it, out of bodies and
`catch` handlers alone. Where it goes to, bodies may start: control falls into them.

## Main definitions

* `Enters`: from scopes into bodies that start at an offset
* `Chart.Lands`: control that goes to an offset is in given scopes
* `Chart.Left`: targets that have been left to scopes around
* `Chart.LeaveTo`: where a `leave` may go

## Main results

* `Enters.cases_suffix`: scopes that are new behind an offset are those of bodies
* `Chart.Left.step`, `Chart.LeaveTo.step`: what is left is placed, or left further
-/

namespace StackScript

open Emit Arrange

/-! ## Bodies at an offset -/

/-- From the scopes of one path to those of another by bodies alone that start at an offset. -/
inductive Enters (opened : List Stage) (o : Nat) (path : Path) : Path → Prop where
  | refl : Enters opened o path path
  | body {s : Stage} : Enters opened o path s.outer → s ∈ opened → s.start = o →
      s.part.handler = none → Enters opened o path s.path

section Enters

variable {opened opened' : List Stage} {o : Nat} {path inner other : Path}

theorem Enters.mono (h : Enters opened o path inner) (hs : ∀ stage ∈ opened, stage ∈ opened') :
    Enters opened' o path inner := by
  induction h with
  | refl => exact .refl
  | body _ hm hstart hbody ih => exact ih.body (hs _ hm) hstart hbody

theorem Enters.suffix (h : Enters opened o path inner) : path <:+ inner := by
  induction h with
  | refl => exact List.suffix_refl _
  | body _ _ _ _ ih => exact ih.trans (List.suffix_cons _ _)

/-- Scopes that are new behind the offset are those of bodies that start there. -/
theorem Enters.cases_suffix (h : Enters opened o path inner) (ho : other <:+ inner) :
    other <:+ path ∨ ∃ stage ∈ opened, stage.path = other ∧ stage.start = o ∧
      stage.part.handler = none := by
  induction h with
  | refl => exact .inl ho
  | @body stage _ hm hstart hbody ih =>
    obtain rfl | ho := List.suffix_cons_iff.mp ho
    · exact .inr ⟨stage, hm, rfl, hstart, hbody⟩
    · exact ih ho

end Enters

namespace Chart

variable {env : LayoutEnv} {c c' : Chart} {path : Path} {b : BlockId} {o : Nat}

/-! ## Landing -/

/-- Control that goes to the offset is in the scopes of the path there, or in bodies in them that
start at the offset. -/
structure Lands (c : Chart) (path : Path) (o : Nat) : Prop where
  pinned : o ≤ c.pinned
  enters : o < c.size ∧ Enters c.opened o path (c.cells o).path ∨
    o = c.size ∧ c.state.asm.reachable = true ∧ Enters c.opened o path c.path

/-- An offset in front of code that stays. -/
theorem Lands.of_lt (h : c.Lands path o) (ho : o < c.size) :
    Enters c.opened o path (c.cells o).path := by
  obtain ⟨-, h⟩ | ⟨he, -⟩ := h.enters
  · exact h
  · exact (Nat.ne_of_lt ho he).elim

/-- Code that is kept, in a chart that knows more parts. -/
theorem Lands.keep (h : c.Lands path o) (ho : o < c.size) (hsize : c.size ≤ c'.size)
    (hpinned : c.pinned ≤ c'.pinned) (hcell : c'.cells o = c.cells o)
    (hopened : ∀ stage ∈ c.opened, stage ∈ c'.opened) : c'.Lands path o where
  pinned := Nat.le_trans h.pinned hpinned
  enters := .inl ⟨Nat.lt_of_lt_of_le ho hsize, by
    rw [hcell]
    exact (h.of_lt ho).mono hopened⟩

/-- Where control does not reach the end of the code, it goes to code. -/
theorem Lands.lt (h : c.Lands path o) (hr : c.state.asm.reachable = false) : o < c.size := by
  obtain ⟨ho, -⟩ | ⟨-, hr', -⟩ := h.enters
  · exact ho
  · rw [hr] at hr'
    cases hr'

/-- A stroke. -/
theorem Lands.stroke (h : c.Lands path o) (hm : c.Mapped) (hp : c.phase ≠ .behind)
    (hsound : c.state.asm.Sound) {state : LayoutState}
    (hs : Stroke env c.scope c.base c.state state)
    (he : Stroke.Effect env c.scope c.base c.state state) : Lands { c with state } path o := by
  have size : c.size ≤ state.asm.code.size := hs.size_le
  have pinned : c.pinned ≤ state.asm.pinned := hs.pinned_le hsound
  obtain ⟨ho, -⟩ | ⟨rfl, hr, hpath⟩ := h.enters
  · exact h.keep ho size pinned rfl fun _ => id
  · refine ⟨Nat.le_trans h.pinned pinned, ?_⟩
    obtain heq | hlt := Nat.eq_or_lt_of_le size
    · exact .inr ⟨heq, he.reachable heq.symm hr, hpath⟩
    · refine .inl ⟨hlt, ?_⟩
      show Enters c.opened c.size path (c.cells c.size).path
      rw [hm.current hp _ (Nat.le_refl _)]
      exact hpath

/-- The start of a block, where a jump that is taken back stood in the scopes of the block. -/
theorem Lands.begin (h : c.Lands path o) {queue : List BlockId} {l : Label}
    (hb : LayoutState.Begun b l { c.state with queue } (c.begin b queue).state)
    (hpinned : c.pinned ≤ (c.begin b queue).size)
    (hjump : c.size = (c.begin b queue).size + 1 →
      (c.cells (c.begin b queue).size).path = c.path) : (c.begin b queue).Lands path o := by
  have le : o ≤ (c.begin b queue).size := Nat.le_trans h.pinned hpinned
  refine ⟨Nat.le_trans le (Nat.le_of_eq hb.pinned.symm), ?_⟩
  obtain hlt | rfl := Nat.lt_or_eq_of_le le
  · have cell : (c.begin b queue).cells o = c.cells o := fillCells_of_lt hlt
    have ho : o < c.size := by
      obtain he | ⟨he, -⟩ := hb.elided
      · exact Nat.lt_of_lt_of_le hlt (Nat.le_of_eq he)
      · have : c.size = (c.begin b queue).size + 1 := he
        omega
    exact .inl ⟨hlt, cell ▸ h.of_lt ho⟩
  · refine .inr ⟨rfl, hb.reachable, ?_⟩
    obtain he | ⟨he, -⟩ := hb.elided
    · obtain ⟨ho, -⟩ | ⟨-, -, hpath⟩ := h.enters
      · exact (Nat.ne_of_lt ho he).elim
      · exact hpath
    · -- The jump is gone; control is in the scopes that it stood in.
      have ho : (c.begin b queue).size < c.size := by
        have : c.size = (c.begin b queue).size + 1 := he
        omega
      have enters := h.of_lt ho
      rw [hjump he] at enters
      exact enters

/-- The start of a body. -/
theorem Lands.openBody (h : c.Lands path o) {body : Part} {todo : List Part}
    (hbody : body.handler = none) (hpinned : c.pinned ≤ c.size) :
    (c.openBody b body todo).Lands path o := by
  obtain ⟨ho, -⟩ | ⟨rfl, hr, hpath⟩ := h.enters
  · exact h.keep ho (Nat.le_refl _) hpinned (fillCells_of_lt ho) fun _ =>
      List.mem_cons_of_mem _
  · refine ⟨Nat.le_refl _, .inr ⟨rfl, hr, ?_⟩⟩
    have body := Enters.body (s := ⟨b, c.path, body, c.size, []⟩)
      (hpath.mono fun _ => List.mem_cons_of_mem _) List.mem_cons_self rfl hbody
    exact body

/-! ## Leaving -/

/-- The target has been left to the scopes of a path, where it is still to be placed. -/
inductive Left (c : Chart) (outer : Path) (b : BlockId) : Prop where
  | current {tag} : c.path = tag :: outer → b ∈ c.state.escapes → Left c outer b
  | carried {level} : level ∈ c.levels → level.stage.outer = outer → b ∈ level.carried →
      Left c outer b
  | saved {level tag} : level ∈ c.levels → level.stage.outer = tag :: outer →
      b ∈ level.escapes → Left c outer b

/-- Only a body or a `catch` handler leaves targets to the scope around it. -/
structure Leaves (c : Chart) : Prop where
  current : c.state.escapes ≠ [] → c.scope.isLeft = true
  saved : ∀ level ∈ c.levels, level.escapes ≠ [] → (scopeOf level.stage.outer).isLeft = true

/-- A `leave` in the scopes of a path may go to the block: out of bodies and `catch` handlers, to
the scopes that the block is in or is left to. -/
inductive LeaveTo (env : LayoutEnv) (c : Chart) (path : Path) (b : BlockId) : Prop where
  | exit : b = Graph.exit → LeaveTo env c path b
  | out {dropped outer} : dropped ≠ [] → (∀ tag ∈ dropped, tag.scope.isLeft = true) →
      path = dropped ++ outer →
      (b ≠ Graph.exit ∧ innermost? env.ranges b = (scopeOf outer).range ∨ c.Left outer b) →
      LeaveTo env c path b

theorem leaves_start {draft : Draft} : (start draft).Leaves where
  current h := (h rfl).elim
  saved level h := by cases h

theorem Leaves.step (h : c.Leaves) (hs : c.Staged env) (hstep : Step env c c') : c'.Leaves := by
  cases hstep with
  | skip | settle => exact { h with }
  | @«begin» b rest =>
    have escapes : (c.begin b rest).state.escapes = c.state.escapes := escapes_beginBlock _ _
    exact { h with current := fun hne => h.current (escapes ▸ hne) }
  | exit =>
    have escapes : (c.begin Graph.exit c.state.queue).state.escapes = c.state.escapes :=
      escapes_beginBlock _ _
    exact { h with current := fun hne => h.current (escapes ▸ hne) }
  | @stroke b state hb hstroke =>
    refine { h with current := fun hne => ?_ }
    cases hstroke with
    | escape hl => exact hl
    | emit | sequencePoint | serve | site | acquire | defineLabel | branch | mark | label | jump
    | leave | endFinally | queue => exact h.current hne
  | openBody =>
    refine ⟨fun hne => (hne rfl).elim, fun level hl => ?_⟩
    rcases List.mem_cons.mp hl with rfl | hl
    · exact h.current
    · exact h.saved level hl
  | @turn level rest part todo kind asm nextSite hidle hlevels =>
    refine ⟨fun hne => (hne rfl).elim, fun l hl => ?_⟩
    rcases List.mem_cons.mp hl with rfl | hl
    · exact h.saved level (hlevels ▸ List.mem_cons_self)
    · exact h.saved l (hlevels ▸ List.mem_cons_of_mem _ hl)
  | @finish level rest queue escapes exitTargeted hidle hlevels _ _ _ _ _ hleft =>
    have linked := hs.linked
    rw [hlevels] at linked
    refine ⟨fun hne => ?_, fun l hl => h.saved l (hlevels ▸ List.mem_cons_of_mem _ hl)⟩
    show (scopeOf (pathOf rest)).isLeft = true
    rw [← linked.1]
    obtain rfl | hl := hleft
    · exact h.saved level (hlevels ▸ List.mem_cons_self) hne
    · exact hl

/-- A scope that is left is not the root. -/
theorem exists_tag_of_isLeft (h : (scopeOf path).isLeft = true) :
    ∃ tag outer, path = tag :: outer ∧ tag.scope.isLeft = true := by
  cases path with
  | nil => cases h
  | cons tag outer => exact ⟨tag, outer, rfl, h⟩

/-- **A target that is left** stays so, or it turns out where it belongs, or it is left further. -/
theorem Left.step {outer : Path} (h : c.Left outer b) (hs : c.Staged env) (hl : c.Leaves)
    (hstep : Step env c c') :
    c'.Left outer b ∨ b = Graph.exit ∨
      (b ≠ Graph.exit ∧ innermost? env.ranges b = (scopeOf outer).range) ∨
      ∃ tag outer', outer = tag :: outer' ∧ tag.scope.isLeft = true ∧ c'.Left outer' b := by
  -- Nothing is lost where the stack stays and escapes are only added.
  have same {c' : Chart} (hlevels : c'.levels = c.levels)
      (hescapes : ∀ t ∈ c.state.escapes, t ∈ c'.state.escapes) : c'.Left outer b := by
    cases h with
    | current hp hb =>
      have path : c'.path = c.path := congrArg pathOf hlevels
      exact .current (path.trans hp) (hescapes b hb)
    | carried hm ho hb => exact .carried (hlevels ▸ hm) ho hb
    | saved hm ho hb => exact .saved (hlevels ▸ hm) ho hb
  have begun (b' : BlockId) (queue : List BlockId) :
      ∀ t ∈ c.state.escapes, t ∈ (c.begin b' queue).state.escapes := by
    have escapes : (c.begin b' queue).state.escapes = c.state.escapes := escapes_beginBlock _ _
    intro t ht
    rw [escapes]
    exact ht
  cases hstep with
  | skip | settle => exact .inl (same rfl fun _ ht => ht)
  | «begin» => exact .inl (same rfl (begun _ _))
  | exit => exact .inl (same rfl (begun _ _))
  | stroke hb hstroke =>
    refine .inl (same rfl fun t ht => ?_)
    cases hstroke with
    | escape => exact List.mem_append_left _ ht
    | emit | sequencePoint | serve | site | acquire | defineLabel | branch | mark | label | jump
    | leave | endFinally | queue => exact ht
  | openBody =>
    left
    cases h with
    | current hp hb => exact .saved List.mem_cons_self hp hb
    | carried hm ho hb => exact .carried (List.mem_cons_of_mem _ hm) ho hb
    | saved hm ho hb => exact .saved (List.mem_cons_of_mem _ hm) ho hb
  | @turn level rest part todo kind asm nextSite hidle hlevels =>
    left
    cases h with
    | current hp hb =>
      rw [Chart.path, hlevels] at hp
      obtain ⟨-, hp⟩ := List.cons.inj hp
      exact .carried List.mem_cons_self hp (List.mem_append_right _ hb)
    | @carried l hm ho hb =>
      rw [hlevels] at hm
      rcases List.mem_cons.mp hm with rfl | hm
      · exact .carried List.mem_cons_self ho (List.mem_append_left _ hb)
      · exact .carried (List.mem_cons_of_mem _ hm) ho hb
    | @saved l _ hm ho hb =>
      rw [hlevels] at hm
      rcases List.mem_cons.mp hm with rfl | hm
      · exact .saved List.mem_cons_self ho hb
      · exact .saved (List.mem_cons_of_mem _ hm) ho hb
  | @finish level rest queue escapes exitTargeted hidle hlevels htodo hq hr hroutes hescapes =>
    have linked := hs.linked
    rw [hlevels] at linked
    -- What the parts of the `try` leave is routed in the scope around.
    have routed (ho : level.stage.outer = outer) (hb : b ∈ c.leavings level) :
        (c.finish level rest queue escapes exitTargeted).Left outer b ∨ b = Graph.exit ∨
          (b ≠ Graph.exit ∧ innermost? env.ranges b = (scopeOf outer).range) ∨
          ∃ tag outer', outer = tag :: outer' ∧ tag.scope.isLeft = true ∧
            (c.finish level rest queue escapes exitTargeted).Left outer' b := by
      obtain ⟨r, hroute, hne, hleave⟩ := hroutes b hb
      rw [ho] at hroute
      right
      cases r with
      | within => exact .inr (.inl (route_within hroute))
      | exit => exact .inl (route_exit hroute).1
      | leave =>
        refine (hleave rfl).imp_right fun hb => .inr ?_
        obtain ⟨tag, outer', rfl, htag⟩ := exists_tag_of_isLeft (route_leave hroute)
        exact ⟨tag, outer', rfl, htag, .current (linked.1.symm.trans ho) hb⟩
      | endFinally => exact (hne rfl).elim
    cases h with
    | current hp hb =>
      have isLeft := hl.current (List.ne_nil_of_mem hb)
      rw [Chart.path, hlevels] at hp
      obtain ⟨-, ho⟩ := List.cons.inj hp
      refine routed ho (List.mem_append_right _ ?_)
      rw [Chart.scope, Chart.path, hlevels] at isLeft
      have isLeft : level.stage.part.scope.isLeft = true := isLeft
      rw [if_pos isLeft]
      exact hb
    | @carried l hm ho hb =>
      rw [hlevels] at hm
      rcases List.mem_cons.mp hm with rfl | hm
      · exact routed ho (List.mem_append_left _ hb)
      · exact .inl (.carried hm ho hb)
    | @saved l tag hm ho hb =>
      left
      rw [hlevels] at hm
      rcases List.mem_cons.mp hm with rfl | hm
      · exact .current (linked.1.symm.trans ho) (hescapes b hb)
      · exact .saved hm ho hb

/-- **A `leave` may go where it may go** behind a step, too. -/
theorem LeaveTo.step (h : c.LeaveTo env path b) (hs : c.Staged env) (hl : c.Leaves)
    (hstep : Step env c c') : c'.LeaveTo env path b := by
  cases h with
  | exit hb => exact .exit hb
  | @out dropped outer hne hall hpath h =>
    obtain h | h := h
    · exact .out hne hall hpath (.inl h)
    · obtain h | hb | h | ⟨tag, outer', rfl, htag, h⟩ := h.step hs hl hstep
      · exact .out hne hall hpath (.inr h)
      · exact .exit hb
      · exact .out hne hall hpath (.inl h)
      · have longer : path = (dropped ++ [tag]) ++ outer' := by simp [hpath]
        refine .out (by simp) (fun t ht => ?_) longer (.inr h)
        rcases List.mem_append.mp ht with ht | ht
        · exact hall t ht
        · exact List.mem_singleton.mp ht ▸ htag

end Chart

end StackScript
