import StackScript.Proofs.Writing.Straight

/-!
# The pieces of the code of expressions

Some ways to write code take more than one instruction, or more than the stack: those with slots and
call sites that are handed out, and the operators with branches of their own. Each of them writes in
one piece and changes the depth of the stack by as many values as is known.

## Main results

* `emits_named`, `emits_callSite`, `emits_setAside`: slots and call sites
* `emits_lowerLogical`: `and` and `or`
-/

namespace StackScript

open Emit
open Assembler (Grows grows_emit grows_local grows_sequencePoint grows_serve
  hasLocal_named hasLocal_scratch hasLocal_result)

variable {j k : Int}

/-! ## Variables and calls -/

/-- An instruction on the slot of a variable. -/
theorem emits_named {name : String} {i : LocalId → Instruction} (hp : ∀ id, (i id).isPlain = true)
    (hl : ∀ id, (i id).local? = some id) (hk : ∀ id, (i id).change = k) :
    Emits k (do emit (i (← withSlots (·.named name)))) := by
  intro d _ d' _ h
  obtain rfl := ends_emit_handed.mp h
  exact ((grows_serve (.named _ name) fun id => Slots.held_named).trans
    (grows_local hasLocal_named (hp _) (hl _) (hk _))).cast (Int.zero_add _)

theorem change_call (body : BodyName) (argc : Nat) (onObject : Bool) :
    (Instruction.call body argc onObject).change = -argc - (if onObject then 1 else 0) := by
  cases onObject with
  | false | true =>
    simp only [Instruction.change, Instruction.pops, Instruction.pushes, if_true, if_false,
      Bool.false_eq_true]
    omega

theorem change_callGlobal (name : QualifiedName) (argc : Nat) :
    (Instruction.callGlobal name argc).change = -argc := by
  simp only [Instruction.change, Instruction.pops, Instruction.pushes]
  omega

theorem change_newObject (type : QualifiedName) (argc : Nat) :
    (Instruction.newObject type argc).change = -argc := by
  simp only [Instruction.change, Instruction.pops, Instruction.pushes]
  omega

theorem change_callSite (shape : SiteShape) :
    (Instruction.callSite shape).change = -1 - shape.pushedCount := by
  simp only [Instruction.change, Instruction.pops, Instruction.pushes]
  omega

/-- The call site behind a receiver, the context, and as many values as it is told. -/
theorem emits_callSite {target : Selector} {shapes : List ArgShape} {k : Nat}
    (hc : ∀ n, (SiteShape.mk n target shapes).pushedCount = k) :
    Emits (-1 - k) (do emit (.callSite ⟨← nextSite, target, shapes⟩)) :=
  emits_nextSite.bind (fun n => emits_emit rfl rfl (by rw [change_callSite, hc])) (by omega)

/-- Behind a value that waits there is one value more than behind what is done meanwhile. -/
theorem emits_setAside {below last : Emit Unit} (hbelow : Emits j below) (hlast : Emits k last) :
    Emits (j + k + 1) (setAside below last) := by
  intro d _ d' hd h
  obtain ⟨d₁, d₂, hends, hends', rfl⟩ := parts_of_ends_setAside h
  have slot := hasLocal_scratch hd
  have store := (Grows.refl _).onLocal slot (i := .storeLocal _) rfl rfl rfl
  have sound := store.sound ((Slots.Serve.scratch _).sound hd)
  have load := (store.trans (hbelow.grows sound hends)).onLocal slot (i := .loadLocal _) rfl rfl rfl
  have tail := hlast.grows (d := ⟨d₁.asm.emit _, d₁.nextSite⟩)
    (load.sound ((Slots.Serve.scratch _).sound hd)) hends'
  have body := (load.trans tail).onLocal slot (i := .loadLocal _) rfl rfl rfl
  exact body.scratch.cast (by
    simp only [Instruction.change, Instruction.pops, Instruction.pushes]
    omega)

/-! ## Operators with branches -/

/-- Two operands, either of which may decide and jump to a label behind them: on either way there
is one value. -/
theorem Assembler.Grows.logical {a b c : Assembler} {decided : Bool}
    (left : Grows 1 a.defineLabel.2.defineLabel.2 b)
    (right : Grows 1 (b.branch (.deciding decided) a.labels.size) c) :
    Grows 1 a (c.conclude decided a.labels.size) := by
  have size₁ := left.evolves.labels_le
  have size₂ := right.evolves.labels_le
  simp only [Assembler.labels_defineLabel, Assembler.labels_branch] at size₁ size₂
  have base : a.labels.size ≤ a.labels.size + 1 := Nat.le_succ _
  have short₁ : a.labels.size < b.labels.size := by omega
  have short₂ : a.labels.size < c.labels.size := by omega
  have done₂ : a.labels.size + 1 < c.labels.size := by omega
  refine ⟨?_, fun hf => ?_, fun id hid => ?_⟩
  · refine .tail ?_ (.mark base (by simpa using done₂))
    refine .tail ?_ (.emit rfl fun _ h => by cases h)
    refine .tail ?_ (.mark (Nat.le_refl _) (by simpa using short₂))
    refine .tail ?_ (.branch (by decide) base (by simpa using done₂))
    refine .tail ?_ (.emit rfl fun _ h => by cases h)
    refine .tail ?_ (.branch BranchKind.deciding_ne_leave (Nat.le_refl _) short₂)
    refine .trans ?_ (right.scribes.weaken (by simp only [Assembler.labels_branch]; omega))
    refine .tail ?_ (.branch BranchKind.deciding_ne_leave (Nat.le_refl _) short₁)
    refine .trans ?_ (left.scribes.weaken (by simp only [Assembler.labels_defineLabel]; omega))
    exact .tail (.single .defineLabel) .defineLabel
  · refine (Assembler.Levels.logical (left.levels.weaken ?_) ?_).depth hf
    · simp only [Assembler.labels_defineLabel]
      omega
    · simpa using right.levels
  · simpa using right.held id (by simpa using left.held id hid)

/-- `and` and `or`. -/
theorem emits_lowerLogical {decidedBy : Bool} {left right : Emit Unit} (hl : Emits 1 left)
    (hr : Emits 1 right) : Emits 1 (lowerLogical decidedBy left right) := by
  intro d _ d' hd h
  obtain ⟨d₁, d₂, hleft, hright, rfl⟩ := parts_of_ends_lowerLogical h
  have grows₁ := hl.grows (d := ⟨d.asm.defineLabel.2.defineLabel.2, d.nextSite⟩) hd hleft
  have grows₂ := hr.grows (d := ⟨d₁.asm.branch _ _, d₁.nextSite⟩)
    (by simpa using grows₁.sound hd) hright
  dsimp only at grows₁ grows₂ ⊢
  exact grows₁.logical grows₂

/-! ## Statements -/

/-- The value on the stack becomes the result of the body. -/
theorem emits_storeResult : Emits (-1) (do emit (.storeLocal (← withSlots (·.result)))) := by
  intro d _ d' _ h
  obtain rfl := ends_emit_handed.mp h
  exact ((grows_serve (.result _) fun id => Slots.held_result).trans
    (grows_local hasLocal_result rfl rfl rfl)).cast rfl

theorem emits_sequencePoint (span : Span) : Emits 0 (onAssembler (·.sequencePoint span)) := by
  intro d _ d' _ h
  rw [ends_onAssembler.mp h]
  exact grows_sequencePoint

end StackScript
