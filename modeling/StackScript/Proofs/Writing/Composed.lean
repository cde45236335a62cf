import StackScript.Proofs.Writing.Straight

/-!
# What expressions are composed of

Expressions are written by plain instructions, by slots and call sites that are handed out, and by
the jumps of `and` and `or`. What each of these ways to write code brings about, and what steps one
behind the other bring about if each of them does, all expressions do; and so do all statements but
`throw`.

The first such thing is that control goes on. The jumps of `and` and `or` end at a label inside the
operator, so control arrives behind the code of an expression if it arrives in front of it, and what
is written there is not left out.

## Main definitions

* `Composed`: a step that is composed of the ways to write code
* `Action.goesOn`: what a statement does is no `throw`
* `Onward`: a step behind which control arrives

## Main results

* `composed_emitValue`: expressions
* `composed_emitAction`: what statements do that throw nothing of their own
* `onward_emitValue`, `onward_emitStatements`: control arrives behind them
-/

namespace StackScript

open Emit

/-- A step that is composed of the ways to write code. -/
inductive Composed : {α : Type} → Emit α → Prop where
  | pure {α : Type} (x : α) : Composed (Pure.pure x : Emit α)
  | throw {α : Type} (cause : Cause) : Composed (MonadExcept.throw cause : Emit α)
  | bind {α β : Type} {step : Emit α} {next : α → Emit β} :
      Composed step → (∀ x, Composed (next x)) → Composed (step >>= next)
  | emit {i : Instruction} : i.isPlain = true → i.isTransfer = false → Composed (Emit.emit i)
  | slot {f : Slots → LocalId × Slots} : (∀ s, Slots.Serve s (f s).2) → Composed (withSlots f)
  | release (id : LocalId) : Composed (Emit.release id)
  | nextSite : Composed Emit.nextSite
  | logical (decidedBy : Bool) {left right : Emit Unit} :
      Composed left → Composed right → Composed (lowerLogical decidedBy left right)

/-! ## Calls -/

section Calls

variable {env : BodyEnv} {args : List Lowered} {name : LoweredName}

/-- An expression is composed of them, evaluated for its value or for its effect. -/
structure Lowered.Composed (lowered : Lowered) : Prop where
  value : StackScript.Composed lowered.value
  effect : StackScript.Composed lowered.effect

theorem composed_ofValue {value : Emit Unit} (h : Composed value) :
    (Lowered.ofValue value).Composed :=
  ⟨h, h.bind fun _ => .emit rfl rfl⟩

theorem composed_loadContext : Composed (loadContext env) := by
  unfold loadContext
  split
  · exact .emit rfl rfl
  · exact .throw _

theorem composed_loadThis : Composed (loadThis env) := by
  unfold loadThis
  split
  · exact .throw _
  · exact .emit rfl rfl

theorem composed_loadLiteral (literal : Literal) : Composed (loadLiteral literal) := by
  cases literal <;> exact .emit rfl rfl

theorem composed_argumentSlot (index : Nat) : Composed (argumentSlot index) := by
  unfold argumentSlot
  split
  · exact .pure _
  · exact .throw _

theorem composed_loadVariable (name : String) : Composed (loadVariable env name) := by
  unfold loadVariable
  split
  · exact composed_loadContext
  · exact (composed_argumentSlot _).bind fun _ => .emit rfl rfl
  · exact (Composed.slot fun s => .named s _).bind fun _ => .emit rfl rfl

theorem composed_storeVariable (name : String) : Composed (storeVariable env name) := by
  unfold storeVariable
  split
  · exact .throw _
  · exact (composed_argumentSlot _).bind fun _ => .emit rfl rfl
  · exact (Composed.slot fun s => .named s _).bind fun _ => .emit rfl rfl

theorem composed_dropArguments (h : ∀ arg ∈ args, arg.Composed) :
    Composed (dropArguments args) := by
  induction args with
  | nil => exact .pure _
  | cons arg rest ih =>
    obtain ⟨first, others⟩ := List.forall_mem_cons.mp h
    exact first.effect.bind fun _ => ih others

theorem composed_pushAll (h : ∀ arg ∈ args, arg.Composed) : Composed (pushAll args) := by
  induction args with
  | nil => exact .pure _
  | cons arg rest ih =>
    obtain ⟨first, others⟩ := List.forall_mem_cons.mp h
    exact first.value.bind fun _ => ih others

theorem composed_pushArguments {callee : String} {params : List Parameter}
    (h : ∀ arg ∈ args, arg.Composed) : Composed (pushArguments env callee params args) := by
  induction params generalizing args with
  | nil =>
    unfold pushArguments
    exact composed_dropArguments h
  | cons param params ih =>
    unfold pushArguments
    split
    · exact composed_loadContext.bind fun _ => ih h
    · obtain ⟨first, others⟩ := List.forall_mem_cons.mp h
      exact first.value.bind fun _ => ih others
    · exact (composed_loadLiteral _).bind fun _ => ih h
    · exact .throw _

theorem composed_lowerCall {function : QualifiedName} (h : ∀ arg ∈ args, arg.Composed) :
    Composed (lowerCall env function args) := by
  unfold lowerCall
  split
  · exact composed_loadContext.bind fun _ => (composed_pushArguments h).bind fun _ => .emit rfl rfl
  · exact composed_loadContext.bind fun _ => (composed_pushAll h).bind fun _ => .emit rfl rfl

/-- A method name is composed of them. -/
def LoweredName.Composed : LoweredName → Prop
  | .direct _ => True
  | .computed value => StackScript.Composed value

theorem composed_lowerLateCall {receiver : Emit Unit} {args : List LoweredArgument}
    (hr : Composed receiver) (hn : name.Composed) (h : ∀ arg ∈ args, arg.code.Composed) :
    Composed (lowerLateCall env receiver name args) := by
  have pushed : Composed (pushAll (args.map (·.code))) :=
    composed_pushAll (List.forall_mem_map.mpr h)
  have called (target : Selector) (shapes : List ArgShape) :
      Composed (do emit (.callSite ⟨← nextSite, target, shapes⟩)) :=
    Composed.nextSite.bind fun _ => .emit rfl rfl
  unfold lowerLateCall
  refine hr.bind fun _ => composed_loadContext.bind fun _ => ?_
  cases name with
  | direct name => exact pushed.bind fun _ => called _ _
  | computed value => exact Composed.bind hn fun _ => pushed.bind fun _ => called _ _

theorem composed_lowerMethodCall {receiver : Emit Unit} {args : List LoweredArgument}
    {receiverType : Option QualifiedName} (hr : Composed receiver) (hn : name.Composed)
    (h : ∀ arg ∈ args, arg.code.Composed) :
    Composed (lowerMethodCall env receiver name args receiverType) := by
  unfold lowerMethodCall
  split
  · exact hr.bind fun _ => composed_loadContext.bind fun _ =>
      (composed_pushArguments (List.forall_mem_map.mpr h)).bind fun _ => .emit rfl rfl
  · exact composed_lowerLateCall hr hn h

theorem composed_lowerCreate {type : QualifiedName} (h : ∀ arg ∈ args, arg.Composed) :
    Composed (lowerCreate env type args) := by
  unfold lowerCreate
  split
  · refine composed_loadContext.bind fun _ => ?_
    split
    · exact (composed_pushArguments h).bind fun _ => .emit rfl rfl
    · exact (composed_dropArguments h).bind fun _ => .emit rfl rfl
  · split
    · exact composed_loadContext.bind fun _ => (composed_pushAll h).bind fun _ => .emit rfl rfl
    · exact .throw _

end Calls

/-! ## Fields and operators -/

section Fields

variable {env : BodyEnv} {type : QualifiedName} {field : String} {value left right : Emit Unit}

theorem composed_resolveStaticField : Composed (resolveStaticField env type field) := by
  unfold resolveStaticField
  split
  · exact .pure _
  · split <;> exact .throw _

theorem composed_loadStatic : Composed (loadStatic env type field) := by
  refine composed_resolveStaticField.bind fun ⟨owner, bound⟩ => ?_
  cases bound with
  | true => exact composed_loadContext.bind fun _ => .emit rfl rfl
  | false => exact .emit rfl rfl

theorem composed_setAside {below last : Emit Unit} (hbelow : Composed below)
    (hlast : Composed last) : Composed (setAside below last) := by
  have onSlot {i : Instruction} (plain : i.isPlain = true) (stays : i.isTransfer = false) :
      Composed (emit i) := .emit plain stays
  exact (Composed.slot .scratch).bind fun _ => (onSlot rfl rfl).bind fun _ => hbelow.bind fun _ =>
    (onSlot rfl rfl).bind fun _ => hlast.bind fun _ => (onSlot rfl rfl).bind fun _ => .release _

theorem composed_storeStatic (keep : Bool) (hv : Composed value) :
    Composed (storeStatic env type field value keep) := by
  have stored {i : Instruction} (plain : i.isPlain = true) (stays : i.isTransfer = false) :
      Composed (emit i) := .emit plain stays
  refine composed_resolveStaticField.bind fun ⟨owner, bound⟩ => ?_
  cases bound <;> cases keep
  · exact hv.bind fun _ => stored rfl rfl
  · exact hv.bind fun _ => (stored rfl rfl).bind fun _ => stored rfl rfl
  · exact composed_loadContext.bind fun _ => hv.bind fun _ => stored rfl rfl
  · exact hv.bind fun _ => composed_setAside composed_loadContext (stored rfl rfl)

theorem composed_lowerFieldStore (hr : Composed left) (hv : Composed value) :
    Composed (lowerFieldStore left field value) := by
  rw [lowerFieldStore_eq]
  exact hr.bind fun _ => hv.bind fun _ => composed_setAside (.pure ()) (.emit rfl rfl)

theorem composed_lowerBinary (op : BinaryOp) (hl : Composed left) (hr : Composed right) :
    Composed (lowerBinary op left right) := by
  cases op with
  | and | or => exact .logical _ hl hr
  | _ => exact hl.bind fun _ => hr.bind fun _ => .emit rfl rfl

/-- The parts of an entry are composed of them. -/
structure LoweredEntry.Composed (entry : LoweredEntry) : Prop where
  key : ∀ key, entry.key = some key → StackScript.Composed key
  value : StackScript.Composed entry.value

theorem composed_lowerArray {entries : List LoweredEntry} (h : ∀ entry ∈ entries, entry.Composed) :
    Composed (lowerArray entries) := by
  have pushed (keyed : Bool) : Composed (pushEntries keyed entries) := by
    induction entries with
    | nil => exact .pure _
    | cons entry rest ih =>
      obtain ⟨⟨key, value⟩, others⟩ := List.forall_mem_cons.mp h
      unfold pushEntries
      split
      · refine Composed.bind ?_ fun _ => value.bind fun _ => ih others
        cases given : entry.key with
        | none => exact .emit rfl rfl
        | some code => exact key code given
      · exact value.bind fun _ => ih others
  have made (keyed : Bool) : Composed (emit (.newArray entries.length keyed)) := .emit rfl rfl
  unfold lowerArray
  exact (pushed _).bind fun _ => made _

end Fields

/-! ## Expressions -/

variable {env : BodyEnv} (e : Expr)

/-- **Every expression** is composed of the ways to write code. -/
theorem composed_lower : (lower env e).Composed := by
  induction e using Expr.induction with
  | literal value =>
    rw [lower]
    exact composed_ofValue (composed_loadLiteral value)
  | var name =>
    rw [lower]
    exact composed_ofValue (composed_loadVariable name)
  | assign target value ih =>
    rw [lower]
    have copied : Composed (emit .dup) := .emit rfl rfl
    exact ⟨ih.value.bind fun _ => copied.bind fun _ => composed_storeVariable target,
      ih.value.bind fun _ => composed_storeVariable target⟩
  | binary op left right ihl ihr =>
    rw [lower]
    exact composed_ofValue (composed_lowerBinary op ihl.value ihr.value)
  | unary op operand ih =>
    rw [lower]
    exact composed_ofValue (ih.value.bind fun _ => .emit rfl rfl)
  | call function args ih =>
    rw [lower, lowerAll_eq]
    exact composed_ofValue (composed_lowerCall (List.forall_mem_map.mpr ih))
  | methodCall receiver name args receiverType ihr ihn iha =>
    rw [lower, lowerArguments_eq]
    refine composed_ofValue (composed_lowerMethodCall ihr.value ?_ ?_)
    · cases name with
      | direct name => rw [lowerName]; exact trivial
      | computed value => rw [lowerName]; exact (ihn value List.mem_cons_self).value
    · refine List.forall_mem_map.mpr fun arg mem => ?_
      rw [code_lowerArgument]
      exact iha arg mem
  | create type args ih =>
    rw [lower, lowerAll_eq]
    exact composed_ofValue (composed_lowerCreate (List.forall_mem_map.mpr ih))
  | this =>
    rw [lower]
    exact composed_ofValue composed_loadThis
  | fieldLoad receiver field ih =>
    rw [lower]
    exact composed_ofValue (ih.value.bind fun _ => .emit rfl rfl)
  | fieldStore receiver field value ihr ihv =>
    rw [lower]
    exact ⟨composed_lowerFieldStore ihr.value ihv.value,
      ihr.value.bind fun _ => ihv.value.bind fun _ => .emit rfl rfl⟩
  | staticLoad type field =>
    rw [lower]
    exact composed_ofValue composed_loadStatic
  | staticStore type field value ih =>
    rw [lower]
    exact ⟨composed_storeStatic true ih.value, composed_storeStatic false ih.value⟩
  | array entries ih =>
    rw [lower, lowerEntries_eq]
    refine composed_ofValue (composed_lowerArray (List.forall_mem_map.mpr fun entry mem => ?_))
    have ih := ih entry mem
    cases entry with
    | item value =>
      rw [lowerEntry]
      exact ⟨nofun, (ih value List.mem_cons_self).value⟩
    | keyed key value =>
      rw [lowerEntry]
      refine ⟨fun code given => ?_, (ih value (List.mem_cons_of_mem _ List.mem_cons_self)).value⟩
      cases given
      exact (ih key List.mem_cons_self).value
  | instanceOf value type ih =>
    rw [lower]
    exact composed_ofValue (ih.value.bind fun _ => .emit rfl rfl)

theorem composed_emitValue : Composed (emitValue env e) := (composed_lower e).value

/-! ## Statements -/

/-- The action goes on behind itself: it throws nothing of its own. -/
def Action.goesOn : Action → Bool
  | .throw _ => false
  | _ => true

/-- **Every statement but `throw`** does what is composed of the ways to write code. -/
theorem composed_emitAction {action : Action} (h : action.goesOn = true) :
    Composed (emitAction env action) := by
  cases action with
  | eval value => exact (composed_lower value).effect
  | echo value =>
    exact composed_loadContext.bind fun _ =>
      (composed_emitValue value).bind fun _ => .emit rfl rfl
  | «return» value =>
    have stored (slot : LocalId) : Composed (emit (.storeLocal slot)) := .emit rfl rfl
    have kept : Composed (withSlots (·.result) >>= fun slot => emit (.storeLocal slot)) :=
      (Composed.slot .result).bind stored
    have null : Composed (emit .loadNull) := .emit rfl rfl
    cases value with
    | none => exact null.bind fun _ => kept
    | some value => exact (composed_emitValue value).bind fun _ => kept
  | throw => cases h

/-! ## Control behind expressions and statements -/

/-- Control arrives behind the code that the step writes, if it arrives in front of it. -/
def Onward {α : Type} (step : Emit α) : Prop :=
  ∀ d x d', Ends step d x d' → d'.asm.fault = none →
    d.asm.fault = none ∧ (d.asm.reachable = true → d'.asm.reachable = true)

namespace Onward

variable {α β : Type} {step : Emit α} {left right : Emit Unit}

theorem pure (x : α) : Onward (Pure.pure x : Emit α) := fun d _ d' ends fault => by
  obtain ⟨-, rfl⟩ := ends_pure.mp ends
  exact ⟨fault, id⟩

theorem bind {next : α → Emit β} (first : Onward step) (second : ∀ x, Onward (next x)) :
    Onward (step >>= next) := fun d y d' ends fault => by
  obtain ⟨x, e, here, there⟩ := ends_bind.mp ends
  obtain ⟨fault₁, arrives₁⟩ := second x e y d' there fault
  obtain ⟨fault₀, arrives₀⟩ := first d x e here fault₁
  exact ⟨fault₀, fun arrives => arrives₁ (arrives₀ arrives)⟩

theorem emit {i : Instruction} (stays : i.isTransfer = false) : Onward (Emit.emit i) :=
  fun d _ d' ends fault => by
    rw [ends_emit.mp ends] at fault ⊢
    refine ⟨(Assembler.fault_emit fault).1, fun arrives => ?_⟩
    rw [Assembler.reachable_emit, arrives, stays]
    rfl

/-- Behind an operator that decides stands a label. -/
theorem logical (decidedBy : Bool) (hl : Onward left) (hr : Onward right) :
    Onward (lowerLogical decidedBy left right) := fun d _ d' ends fault => by
  obtain ⟨d₁, d₂, first, second, rfl⟩ := parts_of_ends_lowerLogical ends
  have emitted {asm : Assembler} {i : Instruction} (h : (asm.emit i).fault = none) :=
    (Assembler.fault_emit h).1
  have branched {asm : Assembler} {kind : BranchKind} {l : Label}
      (h : (asm.branch kind l).fault = none) := (Assembler.fault_branch h).1
  have marked {asm : Assembler} {l : Label} (h : (asm.mark l).fault = none) :=
    (Assembler.fault_mark h).1
  have fault₂ : d₂.asm.fault = none :=
    branched (emitted (branched (marked (emitted (marked fault)))))
  have fault₁ : d₁.asm.fault = none := branched (hr _ _ _ second fault₂).1
  exact ⟨(hl _ _ _ first fault₁).1, fun _ => Assembler.reachable_mark fault⟩

end Onward

/-- **Control arrives behind what expressions are composed of.** -/
theorem Composed.onward {α : Type} {step : Emit α} (h : Composed step) : Onward step := by
  induction h with
  | pure x => exact .pure x
  | throw => exact fun _ _ _ ends => (not_ends_throw ends).elim
  | bind _ _ first second => exact first.bind second
  | emit _ stays => exact .emit stays
  | slot =>
    intro d _ d' ends fault
    obtain ⟨-, rfl⟩ := ends_withSlots.mp ends
    exact ⟨fault, id⟩
  | release =>
    intro d _ d' ends fault
    rw [ends_release.mp ends] at fault ⊢
    exact ⟨fault, fun arrives => arrives⟩
  | nextSite =>
    intro d _ d' ends fault
    obtain ⟨-, rfl⟩ := ends_nextSite.mp ends
    exact ⟨fault, id⟩
  | logical decidedBy _ _ left right => exact left.logical decidedBy right

variable {env : BodyEnv}

theorem onward_emitValue : Onward (emitValue env e) := (composed_emitValue e).onward

/-! ## Statements -/

theorem onward_emitStatement {statement : Statement} (h : statement.action.goesOn = true) :
    Onward (emitStatement env statement) := by
  have marked (span : Span) : Onward (onAssembler (·.sequencePoint span)) :=
    fun d _ d' ends fault => by
      obtain rfl := ends_onAssembler.mp ends
      exact ⟨fault, id⟩
  have action : Onward (emitAction env statement.action) := (composed_emitAction h).onward
  unfold emitStatement
  dsimp only
  split
  · split
    · exact (marked _).bind fun _ => action
    · exact action
  · exact action

theorem onward_emitStatements {statements : List Statement}
    (h : ∀ statement ∈ statements, statement.action.goesOn = true) :
    Onward (emitStatements env statements) := by
  induction statements with
  | nil => exact .pure _
  | cons statement rest ih =>
    exact (onward_emitStatement (h statement List.mem_cons_self)).bind fun _ =>
      ih fun statement mem => h statement (List.mem_cons_of_mem _ mem)

end StackScript
