import StackScript.Proofs.Writing.Success

/-!
# The single steps of a layout

What each step of a layout does to its state, for steps that succeed: labels on first use, the
queue and the escapes of the current scope, and the jump by which a block is reached.

## Main definitions

* `LayoutState.mapAsm`: a step that only writes code
* `LayoutState.withLabel`: the label of a block
* `LayoutState.accept`, `LayoutState.goTo`: a target as part of the layout, without and with a jump

## Main results

* `ends_enqueue`, `goTo_of_ends_transfer`, `branch_of_ends_transferIf`: how targets become part of
  the layout
-/

namespace StackScript

open Emit Arrange

namespace LayoutState

/-- The code written so far. -/
def asm (s : LayoutState) : Assembler := s.draft.asm

/-- The layout with other code. -/
def mapAsm (s : LayoutState) (f : Assembler → Assembler) : LayoutState :=
  { s with draft := { s.draft with asm := f s.draft.asm } }

@[simp] theorem asm_mapAsm (s : LayoutState) (f : Assembler → Assembler) :
    (s.mapAsm f).asm = f s.asm := rfl

/-- The label of a block and the layout that knows it. -/
def withLabel (s : LayoutState) (b : BlockId) : Label × LayoutState :=
  match s.labels.lookup b with
  | some l => (l, s)
  | none =>
    (s.asm.labels.size,
      { s.mapAsm (·.defineLabel.2) with labels := (b, s.asm.labels.size) :: s.labels })

/-- The block comes first in the queue, unless it is placed. -/
def pushFirst (s : LayoutState) (b : BlockId) : LayoutState :=
  if b ∈ s.placed then s else { s with queue := b :: s.queue }

/-- The block comes last in the queue, unless it is placed. -/
def pushLast (s : LayoutState) (b : BlockId) : LayoutState :=
  if b ∈ s.placed then s else { s with queue := s.queue ++ [b] }

/-- The block is left to the scope around the current one. -/
def escape (s : LayoutState) (b : BlockId) : LayoutState :=
  if b = Graph.exit then { s with exitTargeted := true }
  else { s with escapes := s.escapes ++ [b] }

/-- The block becomes part of the layout by a route; no jump is written. -/
def accept (s : LayoutState) (b : BlockId) : Route → LayoutState
  | .within => s.pushLast b
  | .exit => { s with exitTargeted := true }
  | .leave => s.escape b
  | .endFinally => s

/-- The block becomes part of the layout by a route, and a jump to its label is written. -/
def goTo (s : LayoutState) (b : BlockId) (l : Label) : Route → LayoutState
  | .within => (s.mapAsm (·.branch .always l)).pushFirst b
  | .exit => { s with exitTargeted := true }.mapAsm (·.branch .always l)
  | .leave => (s.escape b).mapAsm (·.branch .leave l)
  | .endFinally => s.mapAsm (·.emit .endFinally)

end LayoutState

@[simp] theorem draft_accept (s : LayoutState) (t : BlockId) (r : Route) :
    (s.accept t r).draft = s.draft := by
  cases r <;> simp only [LayoutState.accept, LayoutState.pushLast, LayoutState.escape]
  · split <;> rfl
  · split <;> rfl

@[simp] theorem asm_accept (s : LayoutState) (t : BlockId) (r : Route) :
    (s.accept t r).asm = s.asm :=
  congrArg Draft.asm (draft_accept s t r)

theorem labels_accept (s : LayoutState) (t : BlockId) (r : Route) :
    (s.accept t r).labels = s.labels := by
  unfold LayoutState.accept
  cases r with
  | within =>
    dsimp only [LayoutState.pushLast]
    split <;> rfl
  | leave =>
    dsimp only [LayoutState.escape]
    split <;> rfl
  | exit | endFinally => rfl

section Steps

variable {α : Type} {s s' : LayoutState} {b : BlockId} {u : PUnit}

@[simp] theorem ends_write {step : Emit α} {a : α} :
    Ends (write step) s a s' ↔ ∃ d, Ends step s.draft a d ∧ s' = { s with draft := d } := by
  have run : (write step).run s =
      ((step.run s.draft).1, { s with draft := (step.run s.draft).2 }) := rfl
  unfold Ends
  constructor
  · intro h
    rw [run] at h
    exact ⟨(step.run s.draft).2, Prod.ext (congrArg Prod.fst h :) rfl, (congrArg Prod.snd h).symm⟩
  · rintro ⟨d, h, rfl⟩
    rw [run, h]

@[simp] theorem not_ends_violate {violation : Violation} {a : α} :
    ¬ Ends (Arrange.violate violation) s a s' :=
  not_ends_throw

@[simp] theorem ends_pinnedOffset {n : Nat} :
    Ends pinnedOffset s n s' ↔ n = s.asm.offset ∧ s' = s.mapAsm (·.pin) := by
  unfold pinnedOffset
  rw [ends_write]
  constructor
  · rintro ⟨d, h, rfl⟩
    obtain ⟨rfl, rfl⟩ := ends_withAssembler.mp h
    exact ⟨rfl, rfl⟩
  · rintro ⟨rfl, rfl⟩
    exact ⟨_, ends_withAssembler.mpr ⟨rfl, rfl⟩, rfl⟩

@[simp] theorem ends_isPlaced {r : Bool} :
    Ends (isPlaced b) s r s' ↔ r = s.placed.contains b ∧ s = s' := by
  simp only [isPlaced, ends_bind, ends_get, ends_pure]
  constructor
  · rintro ⟨_, _, ⟨rfl, rfl⟩, rfl, rfl⟩
    exact ⟨rfl, rfl⟩
  · rintro ⟨rfl, rfl⟩
    exact ⟨_, _, ⟨rfl, rfl⟩, rfl, rfl⟩

@[simp] theorem ends_endsInTransfer {r : Bool} :
    Ends endsInTransfer s r s' ↔ r = (!s.asm.reachable) ∧ s = s' := by
  simp only [endsInTransfer, ends_bind, ends_get, ends_pure]
  constructor
  · rintro ⟨_, _, ⟨rfl, rfl⟩, rfl, rfl⟩
    exact ⟨rfl, rfl⟩
  · rintro ⟨rfl, rfl⟩
    exact ⟨_, _, ⟨rfl, rfl⟩, rfl, rfl⟩

@[simp] theorem ends_blockLabel {l : Label} :
    Ends (blockLabel b) s l s' ↔ (l, s') = s.withLabel b := by
  simp only [blockLabel, ends_bind, ends_get]
  constructor
  · rintro ⟨_, _, ⟨rfl, rfl⟩, h⟩
    unfold LayoutState.withLabel
    cases hl : s.labels.lookup b with
    | some l' =>
      rw [hl] at h
      obtain ⟨rfl, rfl⟩ := ends_pure.mp h
      rfl
    | none =>
      rw [hl] at h
      simp only [ends_bind, ends_write, ends_defineLabel, ends_modify, ends_pure] at h
      obtain ⟨_, _, ⟨_, ⟨rfl, rfl⟩, rfl⟩, _, _, rfl, rfl, rfl⟩ := h
      rfl
  · intro h
    refine ⟨s, s, ⟨rfl, rfl⟩, ?_⟩
    unfold LayoutState.withLabel at h
    cases hl : s.labels.lookup b with
    | some l' =>
      rw [hl] at h
      cases h
      exact ends_pure.mpr ⟨rfl, rfl⟩
    | none =>
      rw [hl] at h
      cases h
      simp only [ends_bind, ends_write, ends_defineLabel, ends_modify, ends_pure]
      exact ⟨_, _, ⟨_, ⟨rfl, rfl⟩, rfl⟩, ⟨⟩, _, rfl, rfl, rfl⟩

@[simp] theorem ends_routeTo {env : LayoutEnv} {scope : Scope} {r : Route} :
    Ends (routeTo env scope b) s r s' ↔ route env.ranges scope b = .ok r ∧ s = s' := by
  unfold routeTo
  cases route env.ranges scope b with
  | ok r' => simp
  | error violation => simp

@[simp] theorem ends_queueFirst : Ends (queueFirst b) s u s' ↔ s' = s.pushFirst b := by
  simp only [queueFirst, ends_bind, ends_isPlaced, LayoutState.pushFirst]
  by_cases hb : b ∈ s.placed
  · simpa [hb] using eq_comm
  · simp [hb]

@[simp] theorem ends_queueLast : Ends (queueLast b) s u s' ↔ s' = s.pushLast b := by
  simp only [queueLast, ends_bind, ends_isPlaced, LayoutState.pushLast]
  by_cases hb : b ∈ s.placed
  · simpa [hb] using eq_comm
  · simp [hb]

@[simp] theorem ends_targetExit :
    Ends targetExit s u s' ↔ s' = { s with exitTargeted := true } :=
  ends_modify

@[simp] theorem ends_noteEscape : Ends (noteEscape b) s u s' ↔ s' = s.escape b := by
  unfold noteEscape LayoutState.escape
  split <;> simp

end Steps

/-! ## Targets -/

section Targets

variable {env : LayoutEnv} {scope : Scope} {s s' : LayoutState} {b : BlockId} {u : PUnit}

/-- A target becomes part of the layout by its route. -/
theorem ends_enqueue :
    Ends (enqueue env scope b) s u s' ↔
      ∃ r, route env.ranges scope b = .ok r ∧ s' = s.accept b r := by
  simp only [enqueue, ends_bind, ends_routeTo]
  constructor
  · rintro ⟨r, _, ⟨hr, rfl⟩, h⟩
    refine ⟨r, hr, ?_⟩
    cases r <;> simpa [LayoutState.accept, eq_comm] using h
  · rintro ⟨r, hr, rfl⟩
    refine ⟨r, s, ⟨hr, rfl⟩, ?_⟩
    cases r <;> simp [LayoutState.accept]

/-- A target that is left to a scope, and those behind it. -/
theorem ends_enqueueEscapes_cons {escapes : List BlockId} :
    Ends (enqueueEscapes env scope (b :: escapes)) s u s' ↔
      ∃ r, route env.ranges scope b = .ok r ∧ r ≠ .endFinally ∧
        Ends (enqueueEscapes env scope escapes) (s.accept b r) u s' := by
  simp only [enqueueEscapes, ends_bind, ends_routeTo]
  constructor
  · rintro ⟨r, _, ⟨hr, rfl⟩, h⟩
    by_cases crosses : r = .endFinally
    · simp [crosses] at h
    · simp only [crosses, if_false, ends_bind, ends_enqueue] at h
      obtain ⟨_, _, ⟨r', hr', rfl⟩, h⟩ := h
      obtain rfl : r = r' := Except.ok.inj (hr.symm.trans hr')
      exact ⟨r, hr, crosses, h⟩
  · rintro ⟨r, hr, hne, h⟩
    refine ⟨r, s, ⟨hr, rfl⟩, ?_⟩
    rw [if_neg hne]
    exact ends_bind.mpr ⟨⟨⟩, _, ends_enqueue.mpr ⟨r, hr, rfl⟩, h⟩

/-- Control goes on at a target: behind a transfer nothing is written, else the jump of its
route. -/
theorem goTo_of_ends_transfer (h : Ends (transfer env scope b) s u s') :
    ∃ r, route env.ranges scope b = .ok r ∧
      s' = if s.asm.reachable then (s.withLabel b).2.goTo b (s.withLabel b).1 r
        else s.accept b r := by
  simp only [transfer, ends_bind, ends_endsInTransfer] at h
  obtain ⟨_, _, ⟨rfl, rfl⟩, h⟩ := h
  cases hreach : s.asm.reachable with
  | false => simpa [hreach, ends_enqueue] using h
  | true =>
    simp only [hreach, Bool.not_true, Bool.false_eq_true, if_false, ends_bind, ends_blockLabel,
      ends_routeTo] at h
    obtain ⟨l, s₁, hl, r, _, ⟨hr, rfl⟩, h⟩ := h
    refine ⟨r, hr, ?_⟩
    rw [← hl, if_pos rfl]
    cases r
    · simp only [ends_bind, ends_write, ends_branch, ends_queueFirst] at h
      obtain ⟨_, _, ⟨_, rfl, rfl⟩, rfl⟩ := h
      rfl
    · simp only [ends_bind, ends_write, ends_branch, ends_targetExit] at h
      obtain ⟨_, _, rfl, _, rfl, rfl⟩ := h
      rfl
    · simp only [ends_bind, ends_write, ends_branch, ends_noteEscape] at h
      obtain ⟨_, _, rfl, _, rfl, rfl⟩ := h
      rfl
    · simp only [ends_write, ends_emit] at h
      obtain ⟨_, rfl, rfl⟩ := h
      rfl

/-- A conditional jump to a target. A target of the same scope, and the exit from outside all
scopes, get a conditional branch; for the others a branch skips the unconditional jump. -/
theorem branch_of_ends_transferIf {kind : BranchKind}
    (h : Ends (transferIf env scope kind b) s u s') :
    ∃ r, route env.ranges scope b = .ok r ∧
      match r with
      | .within | .exit =>
        s' = ((s.withLabel b).2.mapAsm (·.branch kind (s.withLabel b).1)).accept b r
      | .leave | .endFinally =>
        ∃ s₁, Ends (transfer env scope b)
            (((s.withLabel b).2.mapAsm (·.defineLabel.2)).mapAsm
              (·.branch kind.negate (s.withLabel b).2.asm.labels.size)) () s₁ ∧
          s' = s₁.mapAsm (·.mark (s.withLabel b).2.asm.labels.size) := by
  simp only [transferIf, ends_bind, ends_blockLabel, ends_routeTo] at h
  obtain ⟨l, s₁, hl, r, _, ⟨hr, rfl⟩, h⟩ := h
  refine ⟨r, hr, ?_⟩
  rw [← hl]
  cases r
  case within | exit =>
    simp only [ends_bind, ends_write, ends_branch, ends_enqueue] at h
    obtain ⟨_, _, ⟨_, rfl, rfl⟩, r', hr', rfl⟩ := h
    rw [hr] at hr'
    cases hr'
    rfl
  case leave | endFinally =>
    simp only [ends_bind, ends_write, ends_branch, ends_defineLabel, ends_mark] at h
    obtain ⟨_, _, ⟨_, ⟨rfl, rfl⟩, rfl⟩, _, _, ⟨_, rfl, rfl⟩, _, s₂, h, _, rfl, rfl⟩ := h
    exact ⟨s₂, h, rfl⟩

end Targets

end StackScript
