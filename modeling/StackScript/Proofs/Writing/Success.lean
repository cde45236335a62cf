import StackScript.Lowering.Layout

/-!
# Steps that succeed

Code is written by steps that keep what they wrote when they stop with a cause. What is said about
written code is said about steps that do not stop: such a step takes one state to a value and
another state, and a sequence of steps succeeds exactly if each of them does.

## Main definitions

* `Ends step s a s'`: the step succeeds from `s` with the value `a` in `s'`

## Main results

* `ends_bind`: a sequence of steps, taken apart
* `ends_write`: a step of a layout that writes code
-/

namespace StackScript

section Sequences

variable {ε σ α β : Type}

/-- The step takes a state to a value and another state. -/
def Ends (step : ExceptT ε (StateM σ) α) (s : σ) (a : α) (s' : σ) : Prop :=
  step.run s = (.ok a, s')

variable {s s' : σ} {a a' : α} {b : β}

@[simp] theorem ends_pure : Ends (pure a : ExceptT ε (StateM σ) α) s a' s' ↔ a = a' ∧ s = s' := by
  constructor
  · intro h
    cases h
    exact ⟨rfl, rfl⟩
  · rintro ⟨rfl, rfl⟩
    rfl

/-- A sequence, run: the second step is left out if the first one stops. -/
theorem run_bind (step : ExceptT ε (StateM σ) α) (next : α → ExceptT ε (StateM σ) β) (s : σ) :
    (step >>= next).run s = (match (step.run s).1 with
      | .ok a => (next a).run (step.run s).2
      | .error e => (.error e, (step.run s).2)) := by
  have run : (step >>= next).run s =
      (match (step.run s).1 with
        | .ok a => (next a).run
        | .error e => pure (.error e)) (step.run s).2 := rfl
  rw [run]
  cases (step.run s).1 <;> rfl

/-- A sequence succeeds exactly if both parts do, the second from where the first ends. -/
@[simp] theorem ends_bind {step : ExceptT ε (StateM σ) α} {next : α → ExceptT ε (StateM σ) β} :
    Ends (step >>= next) s b s' ↔ ∃ a s₁, Ends step s a s₁ ∧ Ends (next a) s₁ b s' := by
  unfold Ends
  rw [run_bind]
  rcases step.run s with ⟨e | a, s₁⟩
  · constructor
    · intro h
      cases h
    · rintro ⟨a, s₂, h, -⟩
      cases h
  · constructor
    · intro h
      exact ⟨a, s₁, rfl, h⟩
    · rintro ⟨a', s₂, h, h'⟩
      cases h
      exact h'

@[simp] theorem not_ends_throw {e : ε} : ¬ Ends (throw e : ExceptT ε (StateM σ) α) s a s' := by
  intro h
  cases h

@[simp] theorem ends_get {r : σ} :
    Ends (get : ExceptT ε (StateM σ) σ) s r s' ↔ s = r ∧ s = s' := by
  constructor
  · intro h
    cases h
    exact ⟨rfl, rfl⟩
  · rintro ⟨rfl, rfl⟩
    rfl

@[simp] theorem ends_set {t : σ} {u : PUnit} :
    Ends (set t : ExceptT ε (StateM σ) PUnit) s u s' ↔ s' = t := by
  constructor
  · intro h
    cases h
    rfl
  · rintro rfl
    rfl

@[simp] theorem ends_modify {f : σ → σ} {u : PUnit} :
    Ends (modify f : ExceptT ε (StateM σ) PUnit) s u s' ↔ s' = f s := by
  constructor
  · intro h
    cases h
    rfl
  · rintro rfl
    rfl

@[simp] theorem ends_modifyGet {f : σ → α × σ} :
    Ends (modifyGet f : ExceptT ε (StateM σ) α) s a s' ↔ f s = (a, s') := by
  have run : (modifyGet f : ExceptT ε (StateM σ) α).run s = (.ok (f s).1, (f s).2) := rfl
  unfold Ends
  rw [run]
  constructor
  · intro h
    cases h
    rfl
  · intro h
    rw [h]

@[simp] theorem ends_ite {c : Prop} [Decidable c] {x y : ExceptT ε (StateM σ) α} :
    Ends (if c then x else y) s a s' ↔ if c then Ends x s a s' else Ends y s a s' := by
  split <;> rfl

end Sequences

/-! ## Steps that write code -/

section Writing

variable {α : Type} {d d' : Draft} {u : PUnit}

namespace Emit

@[simp] theorem ends_onAssembler {f : Assembler → Assembler} :
    Ends (onAssembler f) d u d' ↔ d' = { d with asm := f d.asm } :=
  ends_modify

@[simp] theorem ends_withAssembler {f : Assembler → α × Assembler} {a : α} :
    Ends (withAssembler f) d a d' ↔ a = (f d.asm).1 ∧ d' = { d with asm := (f d.asm).2 } := by
  unfold withAssembler
  rw [ends_modifyGet]
  constructor
  · intro h
    cases h
    exact ⟨rfl, rfl⟩
  · rintro ⟨rfl, rfl⟩
    rfl

@[simp] theorem ends_withSlots {f : Slots → LocalId × Slots} {id : LocalId} :
    Ends (withSlots f) d id d' ↔
      id = (f d.asm.slots).1 ∧ d' = { d with asm := { d.asm with slots := (f d.asm.slots).2 } } :=
  ends_withAssembler

@[simp] theorem ends_emit {instruction : Instruction} :
    Ends (emit instruction) d u d' ↔ d' = { d with asm := d.asm.emit instruction } :=
  ends_onAssembler

@[simp] theorem ends_defineLabel {l : Label} :
    Ends defineLabel d l d' ↔
      l = d.asm.labels.size ∧ d' = { d with asm := d.asm.defineLabel.2 } :=
  ends_withAssembler

@[simp] theorem ends_mark {l : Label} :
    Ends (mark l) d u d' ↔ d' = { d with asm := d.asm.mark l } :=
  ends_onAssembler

@[simp] theorem ends_branch {kind : BranchKind} {l : Label} :
    Ends (branch kind l) d u d' ↔ d' = { d with asm := d.asm.branch kind l } :=
  ends_onAssembler

@[simp] theorem ends_scratch {id : LocalId} :
    Ends scratch d id d' ↔
      id = d.asm.slots.scratch.1 ∧
        d' = { d with asm := { d.asm with slots := d.asm.slots.scratch.2 } } :=
  ends_withSlots

@[simp] theorem ends_release {id : LocalId} :
    Ends (release id) d u d' ↔
      d' = { d with asm := { d.asm with slots := d.asm.slots.release id } } :=
  ends_onAssembler

@[simp] theorem ends_nextSite {n : SiteId} :
    Ends nextSite d n d' ↔ n = d.nextSite ∧ d' = { d with nextSite := d.nextSite + 1 } := by
  unfold nextSite
  rw [ends_modifyGet]
  constructor
  · intro h
    cases h
    exact ⟨rfl, rfl⟩
  · rintro ⟨rfl, rfl⟩
    rfl

@[simp] theorem not_ends_violate {violation : Violation} {a : α} :
    ¬ Ends (violate violation) d a d' :=
  not_ends_throw

@[simp] theorem not_ends_reject {defect : SignatureDefect} {a : α} :
    ¬ Ends (reject defect) d a d' :=
  not_ends_throw

end Emit

end Writing

end StackScript
