import StackScript.Proofs.Writing.Composed
import StackScript.Proofs.Writing.Orderly

/-!
# Code that stays

Only a jump at the end of the code may be taken back, for the label that it goes to. The jumps that
expressions write go over one instruction, to a label that has its place by then, so of the code of
expressions nothing is ever taken back.

## Main definitions

* `Assembler.Lasts`: the code up to an offset stays
* `Assembler.Compact`: writing whose own jumps go over one instruction
* `MarksNothing`: a step that writes in this way, and marks no place of the source

## Main results

* `Assembler.Compact.lasts`: what is written in this way stays
* `Composed.marksNothing`, `marksNothing_emitAction`: expressions, and what statements do
* `compact_of_ends_emitStatements`: statements, none of which is without an instruction
-/

namespace StackScript

open Emit

namespace Assembler

variable {a b c asm : Assembler} {i j : Instruction} {kind : BranchKind} {k l : Label} {m n o : Nat}

/-! ## The places of labels -/

/-- A label that gets its place gets it at the end of the code. -/
theorem Write.placedAt (h : Write a b) (hf : b.fault = none) (ho : b.PlacedAt l o) :
    a.PlacedAt l o ∨ o = b.code.size := by
  cases h with
  | emit => exact .inl (by simpa [PlacedAt] using ho)
  | defineLabel => exact .inl (by simpa [PlacedAt] using ho)
  | @branch kind k hk =>
    rw [PlacedAt, label_branch hk hf] at ho
    split at ho
    case isTrue same => exact .inl (same ▸ ho)
    case isFalse => exact .inl ho
  | mark hk => exact placedAt_mark hk hf ho
  | place hk =>
    refine (placedAt_mark (by simpa using hk) hf ho).imp_left fun ho => ?_
    rwa [PlacedAt, label_elide] at ho
  | pin | beginHandler | sequencePoint | serve => exact .inl ho

/-! ## Code that stays -/

/-- The code up to the offset stays, whatever is written behind it. -/
def Lasts (asm : Assembler) (m : Nat) : Prop :=
  m ≤ asm.code.size ∧
    ∀ later, asm.Evolves later → later.fault = none → ∀ n < m, later.code[n]? = asm.code[n]?

namespace Lasts

theorem mono (h : asm.Lasts m) (le : n ≤ m) : asm.Lasts n :=
  ⟨Nat.le_trans le h.1, fun later goes hf k lt => h.2 later goes hf k (Nat.lt_of_lt_of_le lt le)⟩

theorem evolves (h : a.Lasts m) (goes : a.Evolves b) (hf : b.fault = none) : b.Lasts m := by
  have same := h.2 b goes hf
  refine ⟨?_, fun later goes' hf' n lt => ?_⟩
  · cases m with
    | zero => exact Nat.zero_le _
    | succ m =>
      have lt : m < a.code.size := h.1
      have there : b.code[m]? = some a.code[m] :=
        (same m (Nat.lt_succ_self m)).trans (Array.getElem?_eq_getElem lt)
      exact (Array.getElem?_eq_some_iff.mp there).1
  · exact (h.2 later (goes.trans goes') hf' n lt).trans (same n lt).symm

/-- No label gets its place inside code that stays. -/
theorem placedAt (h : a.Lasts m) (goes : a.Evolves b) (hf : b.fault = none) (ho : b.PlacedAt l o) :
    a.PlacedAt l o ∨ m ≤ o := by
  induction goes with
  | refl => exact .inl ho
  | tail goes step ih =>
    obtain ho | rfl := step.placedAt hf ho
    · exact ih (step.fault hf) ho
    · exact .inr (h.evolves (goes.tail step) hf).1

end Lasts

/-- Code that is kept stays. -/
theorem Sound.lasts (hs : asm.Sound) : asm.Lasts asm.pinned :=
  ⟨hs.pinned_le, fun _ goes hf => (goes.grown hs hf).code⟩

/-! ## Compact code -/

/-- Writing that takes nothing back, and whose own jumps go over one instruction. -/
structure Compact (a b : Assembler) : Prop where
  evolves : a.Evolves b
  grown : Prolongs a.code b.code
  hops : a.Sound → b.fault = none → ∀ {n l}, b.Awaits n l → b.code[n]? = some (.jump 0) →
    a.Awaits n l ∨ b.PlacedAt l (n + 2)

namespace Compact

theorem refl (asm : Assembler) : Compact asm asm :=
  ⟨.refl _, .refl _, fun _ _ _ _ waits _ => .inl waits⟩

theorem trans (h : Compact a b) (h' : Compact b c) : Compact a c where
  evolves := h.evolves.trans h'.evolves
  grown := h.grown.trans h'.grown
  hops hs hf n l waits jump := by
    have fault := h'.evolves.fault hf
    have sound := h.evolves.sound hs fault
    obtain waits | placed := h'.hops sound hf waits jump
    · rw [h'.grown.getElem? (sound.lt waits)] at jump
      exact (h.hops hs fault waits jump).imp_right ((h'.evolves.kept sound hf).placed _ _)
    · exact .inr placed

/-- The code stays as it is. -/
theorem of_same (goes : a.Evolves b) (code : b.code = a.code) (fixups : b.fixups = a.fixups) :
    Compact a b :=
  ⟨goes, code ▸ .refl _, fun _ _ _ _ waits _ => .inl (by rwa [Awaits, ← fixups])⟩

theorem emit (ht : i.target? = none) : Compact asm (asm.emit i) where
  evolves := .single (.emit ht)
  grown := by
    rw [code_emit]
    exact .push _ _
  hops _ _ _ _ waits _ := .inl (by rwa [Awaits, fixups_emit] at waits)

theorem defineLabel : Compact asm asm.defineLabel.2 := .of_same (.single .defineLabel) rfl rfl

theorem mark (hl : l < asm.labels.size) : Compact asm (asm.mark l) :=
  .of_same (.single (.mark hl)) code_mark fixups_mark

theorem sequencePoint {span : Span} : Compact asm (asm.sequencePoint span) :=
  .of_same (.single .sequencePoint) rfl rfl

theorem serve {slots : Slots} (h : asm.slots.Serve slots) : Compact asm { asm with slots } :=
  .of_same (.single (.serve h)) rfl rfl

/-- A branch that is no plain jump. -/
theorem branch (hk : kind ≠ .always) (hl : l < asm.labels.size) :
    Compact asm (asm.branch kind l) where
  evolves := .single (.branch hl)
  grown := by
    rw [code_branch]
    exact .push _ _
  hops _ _ n k waits jump := by
    rw [Awaits, fixups_branch] at waits
    obtain waits | last := Array.mem_push.mp waits
    · exact .inl waits
    · obtain ⟨rfl, rfl⟩ := Prod.mk.inj last
      rw [code_branch, Array.getElem?_push_size] at jump
      cases kind <;> first | exact (hk rfl).elim | cases jump

/-- A jump over one instruction, to which another label belongs. -/
theorem hop (hk : k < asm.labels.size) (hl : l < asm.labels.size) (ht : i.target? = none) :
    Compact asm ((((asm.branch .always l).mark k).emit i).mark l) where
  evolves := by
    have branched : Evolves asm (asm.branch .always l) := .single (.branch hl)
    have marked := branched.tail (.mark (by simpa using hk))
    exact (marked.tail (.emit ht)).tail (.mark (by simpa using hl))
  grown := by
    simp only [code_mark, code_emit, code_branch]
    exact (Prolongs.push _ _).trans (.push _ _)
  hops _ hf n l' waits _ := by
    simp only [Awaits, fixups_mark, fixups_emit, fixups_branch] at waits
    obtain waits | last := Array.mem_push.mp waits
    · exact .inl waits
    · obtain ⟨rfl, rfl⟩ := Prod.mk.inj last
      right
      rw [PlacedAt, label_mark (by simpa using hl) hf, if_pos rfl]
      simp

/-- **Compact code stays** if the code in front of it does. -/
theorem lasts (h : Compact a b) (hs : a.Sound) (hf : b.fault = none)
    (front : a.Lasts a.code.size) : b.Lasts b.code.size := by
  refine ⟨Nat.le_refl _, fun later goes hf' n lt => ?_⟩
  have sound := h.evolves.sound hs hf
  have kept := goes.kept sound hf'
  by_cases old : n < a.code.size
  · exact (front.2 later (h.evolves.trans goes) hf' n old).trans
      (front.2 b h.evolves hf n old).symm
  · have there : b.code[n]? = some b.code[n] := Array.getElem?_eq_getElem lt
    obtain ⟨stays, -⟩ | ⟨jump, taken⟩ := kept.code n _ there
    · rw [stays, there]
    · -- A jump that is taken back is followed by its label, but the own jumps go further.
      rw [jump] at there
      obtain ⟨l, waits⟩ := sound.branches there (by simp [Instruction.target?])
      obtain waits' | placed := h.hops hs hf waits there
      · exact (old (hs.lt waits')).elim
      · have := (taken l waits).1.unique (kept.placed _ _ placed)
        omega

end Compact

/-! ## Points -/

@[simp] theorem sequencePoints_emit : (asm.emit i).sequencePoints = asm.sequencePoints := by
  obtain ⟨_, _, h⟩ := @emit_eq asm i
  rw [h]

@[simp] theorem sequencePoints_branch :
    (asm.branch kind l).sequencePoints = asm.sequencePoints := by
  obtain ⟨_, _, -, h⟩ := @branch_eq asm kind l
  simp [h]

@[simp] theorem sequencePoints_mark : (asm.mark l).sequencePoints = asm.sequencePoints := by
  obtain ⟨_, _, _, _, -, h⟩ := @mark_eq asm l
  rw [h]

@[simp] theorem sequencePoints_elide : (asm.elide l).sequencePoints = asm.sequencePoints := by
  unfold elide
  split <;> rfl

end Assembler

open Assembler

/-! ## Expressions -/

/-- The step writes compact code, and marks no place of the source. -/
def MarksNothing {α : Type} (step : Emit α) : Prop :=
  ∀ d x d', Ends step d x d' →
    d.asm.Compact d'.asm ∧ d'.asm.sequencePoints = d.asm.sequencePoints

namespace MarksNothing

variable {α β : Type} {step : Emit α} {left right : Emit Unit} {i : Instruction}

theorem pure (x : α) : MarksNothing (Pure.pure x : Emit α) := fun d _ d' ends => by
  obtain ⟨-, rfl⟩ := ends_pure.mp ends
  exact ⟨.refl _, rfl⟩

theorem bind {next : α → Emit β} (first : MarksNothing step) (second : ∀ x, MarksNothing (next x)) :
    MarksNothing (step >>= next) := fun d y d' ends => by
  obtain ⟨x, e, here, there⟩ := ends_bind.mp ends
  obtain ⟨compact, points⟩ := first d x e here
  obtain ⟨compact', points'⟩ := second x e y d' there
  exact ⟨compact.trans compact', points'.trans points⟩

theorem emit (ht : i.target? = none) : MarksNothing (Emit.emit i) := fun d _ d' ends => by
  rw [ends_emit.mp ends]
  exact ⟨.emit ht, sequencePoints_emit⟩

/-- The jump that decides nothing goes over the result of those that do. -/
theorem logical (decidedBy : Bool) (hl : MarksNothing left) (hr : MarksNothing right) :
    MarksNothing (lowerLogical decidedBy left right) := fun d _ d' ends => by
  obtain ⟨d₁, d₂, first, second, rfl⟩ := parts_of_ends_lowerLogical ends
  obtain ⟨compact₁, points₁⟩ := hl _ _ _ first
  obtain ⟨compact₂, points₂⟩ := hr _ _ _ second
  have test : BranchKind.deciding decidedBy ≠ .always := BranchKind.deciding_ne_always
  have two : d.asm.defineLabel.2.defineLabel.2.labels.size = d.asm.labels.size + 2 := by
    rw [labels_defineLabel, labels_defineLabel]
  have known₁ : d.asm.labels.size + 2 ≤ d₁.asm.labels.size := two ▸ compact₁.evolves.labels_le
  have known₂ : d.asm.labels.size + 2 ≤ d₂.asm.labels.size := by
    have more := compact₂.evolves.labels_le
    rw [labels_branch] at more
    exact Nat.le_trans known₁ more
  have labelled : d.asm.Compact d.asm.defineLabel.2.defineLabel.2 :=
    Compact.defineLabel.trans .defineLabel
  have tested₁ := Compact.branch (l := d.asm.labels.size) test (Nat.lt_of_succ_lt known₁)
  have tested₂ := Compact.branch (l := d.asm.labels.size) test (Nat.lt_of_succ_lt known₂)
  have operands := ((labelled.trans compact₁).trans tested₁).trans (compact₂.trans tested₂)
  have result := operands.trans (Compact.emit (i := .loadBool !decidedBy) rfl)
  have hop {asm : Assembler} (known : d.asm.labels.size + 2 ≤ asm.labels.size) :
      asm.Compact ((((asm.branch .always (d.asm.labels.size + 1)).mark d.asm.labels.size).emit
        (.loadBool decidedBy)).mark (d.asm.labels.size + 1)) :=
    .hop (Nat.lt_of_succ_lt known) (Nat.lt_of_succ_le known) rfl
  dsimp only
  refine ⟨result.trans (hop ?_), ?_⟩
  · rw [labels_emit, labels_branch]
    exact known₂
  simp only [sequencePoints_mark, sequencePoints_emit, sequencePoints_branch, points₂, points₁]
  rfl

end MarksNothing

/-- **What expressions are composed of** is compact code, and marks no place of the source. -/
theorem Composed.marksNothing {α : Type} {step : Emit α} (h : Composed step) :
    MarksNothing step := by
  induction h with
  | pure x => exact .pure x
  | throw => exact fun _ _ _ ends => (not_ends_throw ends).elim
  | bind _ _ first second => exact first.bind second
  | emit plain => exact .emit (Instruction.target_of_isPlain plain)
  | slot serves =>
    intro d _ d' ends
    obtain ⟨-, rfl⟩ := ends_withSlots.mp ends
    exact ⟨.serve (serves _), rfl⟩
  | release id =>
    intro d _ d' ends
    rw [ends_release.mp ends]
    exact ⟨.serve (.release _ id), rfl⟩
  | nextSite =>
    intro d _ d' ends
    obtain ⟨-, rfl⟩ := ends_nextSite.mp ends
    exact ⟨.refl _, rfl⟩
  | logical decidedBy _ _ left right => exact left.logical decidedBy right

/-! ## Statements -/

variable {env : BodyEnv} {d d' : Draft}

theorem marksNothing_emitAction (action : Action) : MarksNothing (emitAction env action) := by
  cases action with
  | throw value => exact (composed_emitValue value).marksNothing.bind fun _ => .emit rfl
  | eval | echo | «return» => exact (composed_emitAction rfl).marksNothing

/-- The step writes an instruction at least. -/
def Writes {α : Type} (step : Emit α) : Prop :=
  ∀ d x d', Ends step d x d' → d.asm.code.size < d'.asm.code.size

namespace Writes

variable {α β : Type} {step : Emit α} {next : α → Emit β} {i : Instruction}

theorem emit : Writes (Emit.emit i) := fun d _ d' ends => by
  rw [ends_emit.mp ends, code_emit, Array.size_push]
  exact Nat.lt_succ_self _

theorem throw (cause : Cause) : Writes (MonadExcept.throw cause : Emit α) := fun _ _ _ ends =>
  (not_ends_throw ends).elim

theorem behind (first : Composed step) (second : ∀ x, Writes (next x)) :
    Writes (step >>= next) := fun d y d' ends => by
  obtain ⟨x, e, here, there⟩ := ends_bind.mp ends
  exact Nat.lt_of_le_of_lt (first.marksNothing d x e here).1.grown.size_le (second x e y d' there)

end Writes

theorem writes_storeVariable (name : String) : Writes (storeVariable env name) := by
  unfold storeVariable
  split
  · exact .throw _
  · exact .behind (composed_argumentSlot _) fun _ => .emit
  · exact .behind (.slot fun s => .named s _) fun _ => .emit

theorem writes_storeStatic {type : QualifiedName} {field : String} {value : Emit Unit}
    (hv : Composed value) : Writes (storeStatic env type field value false) := by
  refine .behind composed_resolveStaticField fun ⟨owner, bound⟩ => ?_
  cases bound with
  | false => exact .behind hv fun _ => .emit
  | true => exact .behind composed_loadContext fun _ => .behind hv fun _ => .emit

/-- An expression that is evaluated for its effect writes an instruction. -/
theorem writes_emitEffect (e : Expr) : Writes (emitEffect env e) := by
  have dropped {value : Emit Unit} (h : Composed value) : Writes (Lowered.ofValue value).effect :=
    .behind h fun _ => .emit
  have pushed : Composed (lower env e).value := (composed_lower e).value
  unfold emitEffect
  cases e with
  | assign target value =>
    rw [lower]
    exact .behind (composed_emitValue value) fun _ => writes_storeVariable target
  | fieldStore receiver field value =>
    rw [lower]
    exact .behind (composed_emitValue receiver) fun _ =>
      .behind (composed_emitValue value) fun _ => .emit
  | staticStore type field value =>
    rw [lower]
    exact writes_storeStatic (composed_emitValue value)
  | literal | var | binary | unary | call | methodCall | create | this | fieldLoad | staticLoad
    | array | instanceOf =>
    rw [lower] at pushed ⊢
    exact dropped pushed

/-- **No statement is without an instruction.** -/
theorem size_lt_of_ends_emitAction {action : Action} (h : Ends (emitAction env action) d () d') :
    d.asm.code.size < d'.asm.code.size := by
  have writes : Writes (emitAction env action) := by
    cases action with
    | eval value => exact writes_emitEffect value
    | echo value =>
      exact .behind composed_loadContext fun _ => .behind (composed_emitValue value) fun _ => .emit
    | «return» value =>
      have kept : Writes (withSlots (·.result) >>= fun slot => emit (.storeLocal slot)) :=
        .behind (.slot .result) fun _ => .emit
      cases value with
      | none => exact .behind (.emit (i := .loadNull) rfl rfl) fun _ => kept
      | some value => exact .behind (composed_emitValue value) fun _ => kept
    | throw value => exact .behind (composed_emitValue value) fun _ => .emit
  exact writes d () d' h

/-- The code in front of what a statement does: the place in the source is noted. -/
def Statement.noted (statement : Statement) (env : BodyEnv) (d : Draft) : Draft :=
  match statement.span with
  | some span =>
    if env.settings.sequencePoints then { d with asm := d.asm.sequencePoint span } else d
  | none => d

theorem ends_emitStatement {statement : Statement} (h : Ends (emitStatement env statement) d () d') :
    Ends (emitAction env statement.action) (statement.noted env d) () d' := by
  unfold emitStatement at h
  unfold Statement.noted
  by_cases on : env.settings.sequencePoints = true
  · simp only [on, if_true] at h ⊢
    cases span : statement.span with
    | none =>
      rw [span] at h
      exact h
    | some place =>
      rw [span] at h
      obtain ⟨_, d₁, marks, h⟩ := ends_bind.mp h
      obtain rfl := ends_onAssembler.mp marks
      exact h
  · simp only [on, Bool.false_eq_true, if_false] at h ⊢
    split <;> exact h

theorem Statement.compact_noted (statement : Statement) (env : BodyEnv) (d : Draft) :
    d.asm.Compact (statement.noted env d).asm ∧ (statement.noted env d).asm.code = d.asm.code := by
  unfold Statement.noted
  split
  · split
    · exact ⟨.sequencePoint, rfl⟩
    · exact ⟨.refl _, rfl⟩
  · exact ⟨.refl _, rfl⟩

/-- **The code of a statement** is compact, and it has one instruction at least. -/
theorem compact_of_ends_emitStatement {statement : Statement}
    (h : Ends (emitStatement env statement) d () d') :
    d.asm.Compact d'.asm ∧ d.asm.code.size < d'.asm.code.size := by
  obtain ⟨noted, same⟩ := statement.compact_noted env d
  have acts := ends_emitStatement h
  have compact := (marksNothing_emitAction _ _ _ _ acts).1
  exact ⟨noted.trans compact, same ▸ size_lt_of_ends_emitAction acts⟩

theorem compact_of_ends_emitStatements {statements : List Statement}
    (h : Ends (emitStatements env statements) d () d') :
    d.asm.Compact d'.asm ∧ (statements ≠ [] → d.asm.code.size < d'.asm.code.size) := by
  induction statements generalizing d with
  | nil =>
    obtain ⟨-, rfl⟩ := ends_pure.mp h
    exact ⟨.refl _, nofun⟩
  | cons statement rest ih =>
    obtain ⟨_, d₁, first, behind⟩ := ends_bind.mp h
    obtain ⟨compact, longer⟩ := compact_of_ends_emitStatement first
    have others := (ih behind).1
    exact ⟨compact.trans others, fun _ => Nat.lt_of_lt_of_le longer others.grown.size_le⟩

end StackScript
