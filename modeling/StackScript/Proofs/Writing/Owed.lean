import StackScript.Proofs.Writing.Written

/-!
# Labels that are owed their place

While code is written, branches wait for labels that have no place yet. The labels inside an
expression get theirs at once, so behind it no more labels are owed a place than in front of it.

## Main definitions

* `Assembler.Owes`: a branch waits for a label that has no place
* `Assembler.Repays`: code behind which no more is owed

## Main results

* `Written.repays`: all code that is written in one piece
-/

namespace StackScript

open Emit

namespace Assembler

variable {a b c asm : Assembler} {i : Instruction} {kind : BranchKind} {k l : Label}

/-- A branch waits for the label, which has no place yet. -/
def Owes (asm : Assembler) (l : Label) : Prop :=
  (∃ n, asm.Awaits n l) ∧ ∀ o, ¬ asm.PlacedAt l o

@[simp] theorem owes_emit : (asm.emit i).Owes l ↔ asm.Owes l := by simp [Owes, Awaits, PlacedAt]

@[simp] theorem owes_defineLabel : asm.defineLabel.2.Owes l ↔ asm.Owes l := by
  simp only [Owes, Awaits, PlacedAt, label_defineLabel]
  rfl

/-- A branch owes one label more. -/
theorem owes_of_branch (hk : k < asm.labels.size) (hf : (asm.branch kind k).fault = none)
    (h : (asm.branch kind k).Owes l) : asm.Owes l ∨ l = k := by
  obtain ⟨⟨n, waits⟩, free⟩ := h
  rw [Awaits, fixups_branch, Array.mem_push] at waits
  refine waits.imp (fun waits => ⟨⟨n, waits⟩, fun o there => free o ?_⟩) fun waits => ?_
  · rw [PlacedAt, label_branch hk hf]
    split
    case isTrue same => exact same ▸ there
    case isFalse => exact there
  · exact congrArg Prod.snd waits

/-- A label that gets its place is owed no more. -/
theorem owes_of_mark (hk : k < asm.labels.size) (hf : (asm.mark k).fault = none)
    (h : (asm.mark k).Owes l) : asm.Owes l ∧ l ≠ k := by
  obtain ⟨⟨n, waits⟩, free⟩ := h
  rw [Awaits, fixups_mark] at waits
  have other : l ≠ k := by
    rintro rfl
    refine free asm.code.size ?_
    rw [PlacedAt, label_mark hk hf, if_pos rfl]
  refine ⟨⟨⟨n, waits⟩, fun o there => free o ?_⟩, other⟩
  rwa [PlacedAt, label_mark hk hf, if_neg other]

/-- A jump that is taken back waits no more. -/
theorem owes_of_elide (h : (asm.elide k).Owes l) : asm.Owes l := by
  obtain ⟨⟨n, waits⟩, free⟩ := h
  refine ⟨⟨n, ?_⟩, fun o there => free o (by rwa [PlacedAt, label_elide])⟩
  obtain same | ⟨t, code, fixups, -, hfixups, -, same⟩ := elide_cases asm k
  · rwa [same] at waits
  · rw [same] at waits
    rw [Awaits, hfixups]
    exact Array.mem_push.mpr (.inl waits)

/-! ## Code in one piece -/

/-- Code behind which only these labels may be owed a place new. -/
structure Repays (borrowed : List Label) (a b : Assembler) : Prop where
  fault : b.fault = none → a.fault = none
  labels_le : a.labels.size ≤ b.labels.size
  owes : b.fault = none → ∀ l, b.Owes l → a.Owes l ∨ l ∈ borrowed

namespace Repays

variable {borrowed : List Label}

theorem refl (asm : Assembler) : Repays [] asm asm := ⟨id, Nat.le_refl _, fun _ _ owes => .inl owes⟩

/-- What waits and what has its place stays as it is. -/
theorem same (fault : b.fault = a.fault) (labels : b.labels = a.labels)
    (fixups : b.fixups = a.fixups) : Repays [] a b where
  fault hf := fault ▸ hf
  labels_le := Nat.le_of_eq (congrArg Array.size labels.symm)
  owes _ l owes := by
    obtain ⟨⟨n, waits⟩, free⟩ := owes
    rw [Awaits, fixups] at waits
    exact .inl ⟨⟨n, waits⟩, fun o there => free o (by rwa [PlacedAt, label, labels])⟩

/-- Behind such code, code that owes nothing of its own. -/
theorem trans (h : Repays borrowed a b) (h' : Repays [] b c) : Repays borrowed a c where
  fault hf := h.fault (h'.fault hf)
  labels_le := Nat.le_trans h.labels_le h'.labels_le
  owes hf l owes := h.owes (h'.fault hf) l ((h'.owes hf l owes).resolve_right List.not_mem_nil)

theorem emit (i : Instruction) : Repays [] asm (asm.emit i) where
  fault hf := (fault_emit hf).1
  labels_le := Nat.le_of_eq (by rw [labels_emit])
  owes _ _ owes := .inl (owes_emit.mp owes)

theorem defineLabel : Repays [] asm asm.defineLabel.2 where
  fault := id
  labels_le := by
    rw [labels_defineLabel]
    exact Nat.le_succ _
  owes _ _ owes := .inl (owes_defineLabel.mp owes)

/-- A branch borrows a label. -/
theorem branch (h : Repays borrowed a b) (kind : BranchKind) (hk : k < b.labels.size) :
    Repays (k :: borrowed) a (b.branch kind k) where
  fault hf := h.fault (fault_branch hf).1
  labels_le := Nat.le_trans h.labels_le (Nat.le_of_eq labels_branch.symm)
  owes hf l owes := by
    obtain owes | rfl := owes_of_branch hk hf owes
    · exact (h.owes (fault_branch hf).1 l owes).imp_right (List.mem_cons_of_mem k)
    · exact .inr List.mem_cons_self

/-- A label that gets its place is repaid. -/
theorem mark {rest : List Label} (h : Repays borrowed a b) (hk : k < b.labels.size)
    (repaid : ∀ l ∈ borrowed, l = k ∨ l ∈ rest) : Repays rest a (b.mark k) where
  fault hf := h.fault (fault_mark hf).1
  labels_le := Nat.le_trans h.labels_le (Nat.le_of_eq labels_mark.symm)
  owes hf l owes := by
    obtain ⟨owes, other⟩ := owes_of_mark hk hf owes
    exact (h.owes (fault_mark hf).1 l owes).imp_right fun mem => (repaid l mem).resolve_left other

/-- Two tests that go to one label inside the code, and a jump over what is written there. -/
theorem logical {decided : Bool} (left : Repays [] a.defineLabel.2.defineLabel.2 b)
    (right : Repays [] (b.branch (.deciding decided) a.labels.size) c) :
    Repays [] a (c.conclude decided a.labels.size) := by
  have le₁ : a.labels.size + 1 + 1 ≤ b.labels.size := by simpa using left.labels_le
  have le₂ : b.labels.size ≤ c.labels.size := by simpa using right.labels_le
  have short₁ : a.labels.size < b.labels.size := by omega
  have short₂ : a.labels.size < c.labels.size := by omega
  have done₂ : a.labels.size + 1 < c.labels.size := by omega
  have first := ((defineLabel.trans defineLabel).trans left).branch (.deciding decided) short₁
  have second := ((first.trans right).branch (.deciding decided) short₂).trans
    (emit (.loadBool !decided))
  have jump := second.branch .always (k := a.labels.size + 1) (by simpa using done₂)
  have shortcut : Repays [a.labels.size + 1] a _ := jump.mark (k := a.labels.size)
    (by simpa using short₂) (by simp)
  exact (shortcut.trans (emit (.loadBool decided))).mark (by simpa using done₂) (by simp)

/-- Code that is skipped by a test. -/
theorem skip (test : Repays [] a.defineLabel.2 b)
    (code : Repays [] (b.branch .ifFalse a.labels.size) c) :
    Repays [] a (c.mark a.labels.size) := by
  have le₁ : a.labels.size + 1 ≤ b.labels.size := by simpa using test.labels_le
  have le₂ : b.labels.size ≤ c.labels.size := by simpa using code.labels_le
  have skip₁ : a.labels.size < b.labels.size := by omega
  have skip₂ : a.labels.size < c.labels.size := by omega
  exact (((defineLabel.trans test).branch .ifFalse skip₁).trans code).mark skip₂ (by simp)

end Repays

end Assembler

open Assembler

/-- **Code that is written in one piece** owes no label of its own a place. -/
theorem Written.repays {env : BodyEnv} {item : WorkItem} {a b : Shape} {α : Type} {step : Emit α}
    (h : Written env item a b step) {d d' : Draft} {x : α} (ends : Ends step d x d') :
    Repays [] d.asm d'.asm := by
  induction h generalizing d d' with
  | pure =>
    obtain ⟨-, rfl⟩ := ends_pure.mp ends
    exact .refl _
  | throw => exact (not_ends_throw ends).elim
  | bind _ _ ih ih' =>
    obtain ⟨y, d₁, first, second⟩ := ends_bind.mp ends
    exact (ih first).trans (ih' y second)
  | forget _ _ ih => exact ih ends
  | emit =>
    rw [ends_emit.mp ends]
    exact .emit _
  | site call _ ih =>
    obtain ⟨d₁, operands, rfl⟩ := parts_of_ends_lateCall ends
    exact (ih operands).trans (.emit _)
  | slot =>
    obtain ⟨-, rfl⟩ := ends_withSlots.mp ends
    exact .same rfl rfl rfl
  | release =>
    rw [ends_release.mp ends]
    exact .same rfl rfl rfl
  | sequencePoint =>
    rw [ends_onAssembler.mp ends]
    exact .same rfl rfl rfl
  | logical _ _ _ ihl ihr =>
    obtain ⟨d₁, d₂, hleft, hright, rfl⟩ := parts_of_ends_lowerLogical ends
    dsimp only
    exact Repays.logical (ihl hleft) (ihr hright)
  | skip _ _ ihl ihr =>
    obtain ⟨d₁, d₂, htest, hcode, rfl⟩ := parts_of_ends_skipUnless ends
    exact Repays.skip (ihl htest) (ihr hcode)

end StackScript
