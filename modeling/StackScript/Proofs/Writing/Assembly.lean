import Mathlib.Logic.Relation
import Mathlib.Tactic.Common
import StackScript.Proofs.Writing.Success

/-!
# Code as it grows

The single steps by which code is written, field by field. A fault is never taken back, so code
that is finished has been faultless at every step, and without a fault branches and labels agree on
the depth of the stack.

## Main definitions

* `Assembler.PlacedAt`, `Assembler.Awaits`: labels with a place, and the branches that wait for them
* `Assembler.place`: a label in place of a jump to it

## Main results

* `Assembler.fault_branch`, `Assembler.fault_mark`: what branches and labels agree on
* `Assembler.label_branch`, `Assembler.label_mark`: what is known of a label behind them
-/

namespace StackScript.Assembler

variable {asm : Assembler} {i : Instruction} {kind : BranchKind} {l k : Label} {n o o' : Nat}

/-! ## Labels -/

/-- The label has a place. -/
def PlacedAt (asm : Assembler) (l : Label) (o : Nat) : Prop := (asm.label l).offset = some o

/-- The instruction at an offset is a branch that waits for a label. -/
def Awaits (asm : Assembler) (n : Nat) (l : Label) : Prop := (n, l) ∈ asm.fixups

theorem PlacedAt.unique (h : asm.PlacedAt l o) (h' : asm.PlacedAt l o') : o = o' :=
  Option.some.inj (h.symm.trans h')

theorem PlacedAt.lt (h : asm.PlacedAt l o) : l < asm.labels.size := by
  by_contra hl
  have none : asm.labels[l]? = none := by simpa using hl
  simp [PlacedAt, label, none] at h

/-- Puts a label in front of the next instruction, in place of a jump to it. -/
def place (asm : Assembler) (l : Label) : Assembler := (asm.elide l).mark l

theorem label_setLabel {state : LabelState} (h : l < asm.labels.size) :
    (asm.setLabel l state).label k = if k = l then state else asm.label k := by
  unfold setLabel label
  rw [Array.getElem?_setIfInBounds]
  by_cases hk : k = l
  · subst hk
    simp [h]
  · rw [if_neg (fun he => hk he.symm), if_neg hk]

@[simp] theorem label_defineLabel : asm.defineLabel.2.label k = asm.label k := by
  simp only [defineLabel, label, Array.getElem?_push]
  by_cases hk : k = asm.labels.size
  · subst hk
    simp
  · rw [if_neg hk]

@[simp] theorem labels_defineLabel :
    asm.defineLabel.2.labels.size = asm.labels.size + 1 := Array.size_push _

/-! ## Faults -/

section Fail

variable (v : Violation)

theorem fail_eq : ∃ fault, asm.fail v = { asm with fault } := by
  unfold fail
  split
  · exact ⟨asm.fault, rfl⟩
  · exact ⟨some v, rfl⟩

theorem fault_fail : (asm.fail v).fault ≠ none := by unfold fail; split <;> simp [*]

end Fail

/-! ## Instructions -/

/-- An instruction changes the depth, and nothing else that was there before it. -/
theorem emit_eq : ∃ callSites fault, asm.emit i =
    { asm with
      code := asm.code.push i
      depth := asm.depth - i.pops + i.pushes
      maxStack := max asm.maxStack (asm.depth - i.pops + i.pushes)
      reachable := asm.reachable && !i.isTransfer
      callSites, fault } := by
  by_cases hd : asm.depth < i.pops
  · obtain ⟨fault, hf⟩ := @fail_eq asm (.stackUnderflow i asm.depth i.pops)
    simp only [emit, adjust, if_pos hd, hf]
    exact ⟨_, _, rfl⟩
  · simp only [emit, adjust, if_neg hd]
    exact ⟨_, _, rfl⟩

@[simp] theorem code_emit : (asm.emit i).code = asm.code.push i := by
  obtain ⟨_, _, h⟩ := @emit_eq asm i
  rw [h]

@[simp] theorem labels_emit : (asm.emit i).labels = asm.labels := by
  obtain ⟨_, _, h⟩ := @emit_eq asm i
  rw [h]

@[simp] theorem label_emit : (asm.emit i).label k = asm.label k := by simp [label]

@[simp] theorem fixups_emit : (asm.emit i).fixups = asm.fixups := by
  obtain ⟨_, _, h⟩ := @emit_eq asm i
  rw [h]

@[simp] theorem depth_emit : (asm.emit i).depth = asm.depth - i.pops + i.pushes := by
  obtain ⟨_, _, h⟩ := @emit_eq asm i
  rw [h]

@[simp] theorem maxStack_emit :
    (asm.emit i).maxStack = max asm.maxStack (asm.depth - i.pops + i.pushes) := by
  obtain ⟨_, _, h⟩ := @emit_eq asm i
  rw [h]

@[simp] theorem reachable_emit : (asm.emit i).reachable = (asm.reachable && !i.isTransfer) := by
  obtain ⟨_, _, h⟩ := @emit_eq asm i
  rw [h]

@[simp] theorem pinned_emit : (asm.emit i).pinned = asm.pinned := by
  obtain ⟨_, _, h⟩ := @emit_eq asm i
  rw [h]

@[simp] theorem slots_emit : (asm.emit i).slots = asm.slots := by
  obtain ⟨_, _, h⟩ := @emit_eq asm i
  rw [h]

/-- An instruction without a fault finds the values that it takes. -/
theorem fault_emit (h : (asm.emit i).fault = none) : asm.fault = none ∧ i.pops ≤ asm.depth := by
  change (asm.adjust i).fault = none at h
  unfold adjust at h
  by_cases hd : asm.depth < i.pops
  · simp only [if_pos hd] at h
    exact (fault_fail _ h).elim
  · simp only [if_neg hd] at h
    exact ⟨h, Nat.le_of_not_lt hd⟩

/-! ## Branches -/

@[simp] theorem pushes_branch : (kind.instruction n).pushes = 0 := by cases kind <;> rfl

/-- A branch is an instruction that waits for its label. -/
theorem branch_eq : ∃ labels fault, labels.size = asm.labels.size ∧ asm.branch kind l =
    { asm.emit (kind.instruction 0) with
      fixups := asm.fixups.push (asm.code.size, l), labels, fault } := by
  have size : (asm.emit (kind.instruction 0)).labels.size = asm.labels.size := by rw [labels_emit]
  unfold branch
  simp only [fixups_emit, offset]
  split
  · split
    · exact ⟨_, _, size, rfl⟩
    · obtain ⟨fault, hf⟩ := @fail_eq { asm.emit (kind.instruction 0) with
        fixups := asm.fixups.push (asm.code.size, l) } (.depthAtBranch _ _ _)
      exact ⟨_, _, size, hf⟩
  · exact ⟨_, _, Array.size_setIfInBounds.trans size, rfl⟩

@[simp] theorem code_branch :
    (asm.branch kind l).code = asm.code.push (kind.instruction 0) := by
  obtain ⟨_, _, -, h⟩ := @branch_eq asm kind l
  simp [h]

@[simp] theorem labels_branch : (asm.branch kind l).labels.size = asm.labels.size := by
  obtain ⟨_, _, hl, h⟩ := @branch_eq asm kind l
  simp [h, hl]

@[simp] theorem fixups_branch :
    (asm.branch kind l).fixups = asm.fixups.push (asm.code.size, l) := by
  obtain ⟨_, _, -, h⟩ := @branch_eq asm kind l
  simp [h]

@[simp] theorem depth_branch :
    (asm.branch kind l).depth = asm.depth - (kind.instruction 0).pops := by
  obtain ⟨_, _, -, h⟩ := @branch_eq asm kind l
  simp [h]

@[simp] theorem maxStack_branch :
    (asm.branch kind l).maxStack =
      max asm.maxStack (asm.depth - (kind.instruction 0).pops) := by
  obtain ⟨_, _, -, h⟩ := @branch_eq asm kind l
  simp [h]

@[simp] theorem reachable_branch :
    (asm.branch kind l).reachable = (asm.reachable && !(kind.instruction 0).isTransfer) := by
  obtain ⟨_, _, -, h⟩ := @branch_eq asm kind l
  simp [h]

@[simp] theorem pinned_branch : (asm.branch kind l).pinned = asm.pinned := by
  obtain ⟨_, _, -, h⟩ := @branch_eq asm kind l
  simp [h]

@[simp] theorem slots_branch : (asm.branch kind l).slots = asm.slots := by
  obtain ⟨_, _, -, h⟩ := @branch_eq asm kind l
  simp [h]

/-- A branch without a fault agrees with the other branches to its label. -/
theorem fault_branch (h : (asm.branch kind l).fault = none) :
    asm.fault = none ∧ (kind.instruction 0).pops ≤ asm.depth ∧
      ∀ d, (asm.label l).depth = some d → d = asm.depth - (kind.instruction 0).pops := by
  have label : ∀ fixups, ({ asm.emit (kind.instruction 0) with fixups } : Assembler).label l =
      asm.label l := fun _ => label_emit
  unfold branch at h
  simp only [label] at h
  split at h
  case h_1 expected hd =>
    split at h
    case isFalse => exact (fault_fail _ h).elim
    case isTrue he =>
      obtain ⟨hf, hp⟩ := fault_emit h
      refine ⟨hf, hp, fun d hd' => ?_⟩
      rw [hd] at hd'
      cases hd'
      simpa using he
  case h_2 hd =>
    obtain ⟨hf, hp⟩ := fault_emit h
    exact ⟨hf, hp, fun d hd' => by simp [hd] at hd'⟩

/-- Behind a branch the depth at its label is known. -/
theorem label_branch (hl : l < asm.labels.size) (h : (asm.branch kind l).fault = none) :
    (asm.branch kind l).label k =
      if k = l then ⟨(asm.label l).offset, some (asm.depth - (kind.instruction 0).pops)⟩
      else asm.label k := by
  have label : ∀ fixups k, ({ asm.emit (kind.instruction 0) with fixups } : Assembler).label k =
      asm.label k := fun _ _ => label_emit
  obtain ⟨-, -, agrees⟩ := fault_branch h
  unfold branch
  simp only [label]
  split
  case h_1 expected hd =>
    split
    case isFalse hne => exact (hne (by simpa using agrees _ hd)).elim
    case isTrue =>
      by_cases hk : k = l
      · subst hk
        rw [if_pos rfl, label, ← agrees _ hd, ← hd]
      · rw [if_neg hk, label]
  case h_2 hd =>
    rw [label_setLabel (by simpa using hl)]
    by_cases hk : k = l
    · rw [if_pos hk, if_pos hk]
      simp
    · rw [if_neg hk, if_neg hk, label]

/-! ## Marks -/

/-- A label in front of the next instruction keeps the code in front of it. -/
theorem mark_eq : ∃ labels depth reachable fault, labels.size = asm.labels.size ∧
    asm.mark l = { asm with pinned := asm.code.size, labels, depth, reachable, fault } := by
  have failed (asm : Assembler) (v : Violation) : ∃ fault, asm.fail v = { asm with fault } :=
    fail_eq v
  unfold mark
  by_cases ho : (asm.pin.label l).offset.isSome = true
  · obtain ⟨fault, hf⟩ := failed asm.pin (.labelMarkedTwice l)
    simp only [if_pos ho, hf]
    exact ⟨_, _, _, _, rfl, rfl⟩
  · simp only [if_neg ho]
    split
    case h_1 expected _ _ =>
      split_ifs
      · exact ⟨_, _, _, _, Array.size_setIfInBounds, rfl⟩
      · obtain ⟨fault, hf⟩ := failed (asm.pin.setLabel l ⟨some asm.code.size, some expected⟩)
          (.depthIntoLabel asm.depth expected)
        exact ⟨_, _, _, _, Array.size_setIfInBounds, hf⟩
    all_goals exact ⟨_, _, _, _, Array.size_setIfInBounds, rfl⟩

@[simp] theorem code_mark : (asm.mark l).code = asm.code := by
  obtain ⟨_, _, _, _, -, h⟩ := @mark_eq asm l
  rw [h]

@[simp] theorem labels_mark : (asm.mark l).labels.size = asm.labels.size := by
  obtain ⟨_, _, _, _, hl, h⟩ := @mark_eq asm l
  rw [h, hl]

@[simp] theorem fixups_mark : (asm.mark l).fixups = asm.fixups := by
  obtain ⟨_, _, _, _, -, h⟩ := @mark_eq asm l
  rw [h]

@[simp] theorem maxStack_mark : (asm.mark l).maxStack = asm.maxStack := by
  obtain ⟨_, _, _, _, -, h⟩ := @mark_eq asm l
  rw [h]

@[simp] theorem pinned_mark : (asm.mark l).pinned = asm.code.size := by
  obtain ⟨_, _, _, _, -, h⟩ := @mark_eq asm l
  rw [h]

@[simp] theorem slots_mark : (asm.mark l).slots = asm.slots := by
  obtain ⟨_, _, _, _, -, h⟩ := @mark_eq asm l
  rw [h]

/-- The depth at a label that is put here. -/
def depthAt (asm : Assembler) (l : Label) : Nat :=
  if asm.reachable then asm.depth else (asm.label l).depth.getD 0

/-- A label without a fault is put in one place, at the depth of the branches to it. -/
theorem fault_mark (h : (asm.mark l).fault = none) :
    asm.fault = none ∧ (asm.label l).offset = none ∧
      (∀ d, (asm.label l).depth = some d → d = asm.depthAt l) ∧
      asm.mark l =
        { (asm.setLabel l ⟨some asm.code.size, some (asm.depthAt l)⟩) with
          depth := asm.depthAt l, reachable := true, pinned := asm.code.size } := by
  have label : ∀ k, asm.pin.label k = asm.label k := fun _ => rfl
  unfold mark at h ⊢
  simp only [label] at h ⊢
  by_cases ho : (asm.label l).offset.isSome = true
  · rw [if_pos ho] at h
    exact (fault_fail _ h).elim
  rw [if_neg ho] at h ⊢
  have ho : (asm.label l).offset = none := by simpa using ho
  unfold depthAt
  -- Whether control falls onto the label, and whether a branch to it has been written.
  cases hr : asm.reachable <;> cases hd : (asm.label l).depth
  case false.none =>
    have hr' : asm.pin.reachable = false := hr
    simp only [hr', hd] at h ⊢
    exact ⟨h, ho, by simp, rfl⟩
  case false.some d =>
    have hr' : asm.pin.reachable = false := hr
    simp only [hr', hd] at h ⊢
    exact ⟨h, ho, by simp, rfl⟩
  case true.none =>
    have hr' : asm.pin.reachable = true := hr
    simp only [hr', hd] at h ⊢
    refine ⟨h, ho, by simp, ?_⟩
    simp only [setLabel, pin, offset, if_true]
    rw [hr]
  case true.some d =>
    have hr' : asm.pin.reachable = true := hr
    simp only [hr', hd] at h ⊢
    by_cases he : d = asm.depth
    · have he' : d = asm.pin.depth := he
      subst he
      simp only [setLabel, pin, if_true] at h ⊢
      refine ⟨h, ho, by simp, ?_⟩
      rw [hr]
      rfl
    · have he' : ¬ d = asm.pin.depth := he
      split_ifs at h
      · contradiction
      · exact (fault_fail _ h).elim

theorem reachable_mark (h : (asm.mark l).fault = none) : (asm.mark l).reachable = true := by
  rw [(fault_mark h).2.2.2]

theorem depth_mark (h : (asm.mark l).fault = none) : (asm.mark l).depth = asm.depthAt l := by
  rw [(fault_mark h).2.2.2]

/-- A label that has been put somewhere is known to be there. -/
theorem label_mark (hl : l < asm.labels.size) (h : (asm.mark l).fault = none) :
    (asm.mark l).label k =
      if k = l then ⟨some asm.code.size, some (asm.depthAt l)⟩ else asm.label k := by
  rw [(fault_mark h).2.2.2]
  exact label_setLabel hl

/-! ## Jumps that are taken back -/

/-- The code ends in a jump that may be taken back for a label that comes next. -/
theorem endsInJumpTo_iff :
    asm.endsInJumpTo l = true ↔
      (∃ t, asm.code.back? = some (.jump t)) ∧ asm.fixups.back? = some (asm.code.size - 1, l) ∧
        asm.pinned < asm.code.size := by
  unfold endsInJumpTo
  split
  case h_1 t index target hc hf =>
    simp only [Bool.and_eq_true, decide_eq_true_eq, beq_iff_eq, hc, hf, Option.some.injEq,
      Prod.mk.injEq, Instruction.jump.injEq, exists_eq', true_and]
    constructor
    · rintro ⟨⟨hp, hi⟩, ht⟩
      exact ⟨⟨by omega, ht⟩, hp⟩
    · rintro ⟨⟨hi, ht⟩, hp⟩
      exact ⟨⟨hp, by omega⟩, ht⟩
  case h_2 hne =>
    simp only [Bool.false_eq_true, false_iff]
    rintro ⟨⟨t, hc⟩, hf, -⟩
    exact hne t _ _ hc hf

@[simp] theorem labels_elide : (asm.elide l).labels = asm.labels := by
  unfold elide; split <;> rfl

@[simp] theorem label_elide : (asm.elide l).label k = asm.label k := by simp [label]

@[simp] theorem depth_elide : (asm.elide l).depth = asm.depth := by unfold elide; split <;> rfl

@[simp] theorem maxStack_elide : (asm.elide l).maxStack = asm.maxStack := by
  unfold elide; split <;> rfl

@[simp] theorem pinned_elide : (asm.elide l).pinned = asm.pinned := by
  unfold elide; split <;> rfl

@[simp] theorem slots_elide : (asm.elide l).slots = asm.slots := by unfold elide; split <;> rfl

@[simp] theorem fault_elide : (asm.elide l).fault = asm.fault := by unfold elide; split <;> rfl

end StackScript.Assembler
