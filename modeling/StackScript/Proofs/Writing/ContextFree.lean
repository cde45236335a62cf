import StackScript.Proofs.Writing.Careful

/-!
# Expressions without a context

Whether an expression needs an execution context is decided by its syntax alone, before any code is
written. Code that is written for the others agrees: it calls nothing, writes nothing out, touches no
static field, and never asks for the context.

## Main definitions

* `Instruction.staysInside`: an instruction that needs nothing outside its frame but objects
* `WritesOnly`: what a step adds to a draft, and why it stops
* `Expr.MentionsThis`: `this` occurs in an expression

## Main results

* `staysInside_emitValue`: the code of expressions that need no context
-/

namespace StackScript

open Emit

/-- The instruction calls nothing, creates and writes out nothing, and touches neither the context
nor a static field. -/
def Instruction.staysInside : Instruction → Bool
  | .loadContext | .call .. | .callGlobal .. | .callSite .. | .newObject .. | .echo => false
  | .loadShared .. | .storeShared .. | .loadBound .. | .storeBound .. => false
  | _ => true

/-! ## What steps add to a draft -/

/-- The step issues no call site, writes such instructions behind what there is, and stops with such
causes only. -/
structure WritesOnly {α : Type} (P : Instruction → Prop) (E : Cause → Prop) (step : Emit α) :
    Prop where
  nextSite : ∀ d, (step.run d).2.nextSite = d.nextSite
  code : ∀ d, ∃ code, (step.run d).2.asm.code = d.asm.code ++ code ∧ ∀ i ∈ code, P i
  cause : ∀ d cause, (step.run d).1 = .error cause → E cause

namespace WritesOnly

variable {α β : Type} {P P' : Instruction → Prop} {E E' : Cause → Prop} {f : Assembler → Assembler}
    {i : Instruction}

theorem mono {step : Emit α} (h : WritesOnly P E step) (instructions : ∀ i, P i → P' i)
    (causes : ∀ cause, E cause → E' cause) : WritesOnly P' E' step where
  nextSite := h.nextSite
  code d := by
    obtain ⟨code, added, own⟩ := h.code d
    exact ⟨code, added, fun i mem => instructions i (own i mem)⟩
  cause d cause stops := causes cause (h.cause d cause stops)

/-- A step that writes no code and does not stop. -/
theorem silent {step : Emit α} {f : Draft → α × Draft} (run : ∀ d, step.run d = (.ok (f d).1, (f d).2))
    (nextSite : ∀ d, (f d).2.nextSite = d.nextSite) (code : ∀ d, (f d).2.asm.code = d.asm.code) :
    WritesOnly P E step where
  nextSite d := by rw [run, nextSite]
  code d := by
    refine ⟨#[], ?_, fun i mem => by simp at mem⟩
    rw [run, Array.append_empty]
    exact code d
  cause d cause stops := by
    rw [run] at stops
    cases stops

theorem pure (a : α) : WritesOnly P E (Pure.pure a) :=
  silent (f := fun d => (a, d)) (fun _ => rfl) (fun _ => rfl) fun _ => rfl

theorem throw {cause : Cause} (excused : E cause) :
    WritesOnly P E (MonadExcept.throw cause : Emit α) where
  nextSite _ := rfl
  code d := ⟨#[], Array.append_empty.symm, fun i mem => by simp at mem⟩
  cause d other stops := by
    have same : (Except.error cause : Except Cause α) = .error other := stops
    cases same
    exact excused

theorem bind {step : Emit α} {next : α → Emit β} (first : WritesOnly P E step)
    (second : ∀ a, WritesOnly P E (next a)) : WritesOnly P E (step >>= next) := by
  refine ⟨fun d => ?_, fun d => ?_, fun d => ?_⟩ <;> rw [run_bind]
  · cases (step.run d).1 with
    | error => exact first.nextSite d
    | ok a => exact ((second a).nextSite _).trans (first.nextSite d)
  · obtain ⟨code, added, own⟩ := first.code d
    cases (step.run d).1 with
    | error => exact ⟨code, added, own⟩
    | ok a =>
      obtain ⟨code', added', own'⟩ := (second a).code (step.run d).2
      refine ⟨code ++ code', by rw [added', added, Array.append_assoc], fun i mem => ?_⟩
      exact (Array.mem_append.mp mem).elim (own i) (own' i)
  · intro cause stops
    cases result : (step.run d).1 with
    | error e =>
      rw [result] at stops
      cases stops
      exact first.cause d _ result
    | ok a =>
      rw [result] at stops
      exact (second a).cause _ cause stops

/-- A change of the assembler that leaves the code alone. -/
theorem withAssembler {f : Assembler → α × Assembler} (same : ∀ asm, (f asm).2.code = asm.code) :
    WritesOnly P E (Emit.withAssembler f) :=
  silent (f := fun d => ((f d.asm).1, { d with asm := (f d.asm).2 })) (fun _ => rfl) (fun _ => rfl)
    fun d => same d.asm

theorem onAssembler (same : ∀ asm, (f asm).code = asm.code) : WritesOnly P E (Emit.onAssembler f) :=
  silent (f := fun d => ((), { d with asm := f d.asm })) (fun _ => rfl) (fun _ => rfl)
    fun d => same d.asm

/-- One instruction more. -/
theorem push (own : P i) (pushes : ∀ asm, (f asm).code = asm.code.push i) :
    WritesOnly P E (Emit.onAssembler f) where
  nextSite _ := rfl
  code d := by
    refine ⟨#[i], (pushes d.asm).trans Array.push_eq_append, fun j mem => ?_⟩
    rw [Array.mem_singleton.mp mem]
    exact own
  cause d cause stops := by
    have same : (Except.ok () : Except Cause Unit) = .error cause := stops
    cases same

theorem emit (own : P i) : WritesOnly P E (Emit.emit i) :=
  push own fun _ => Assembler.code_emit

theorem branch {kind : BranchKind} (own : P (kind.instruction 0)) (l : Label) :
    WritesOnly P E (Emit.branch kind l) :=
  push own fun _ => Assembler.code_branch

end WritesOnly

/-! ## Expressions -/

/-- `this` occurs in the expression. -/
inductive Expr.MentionsThis : Expr → Prop
  | this : MentionsThis .this
  | assign {target value} : value.MentionsThis → MentionsThis (.assign target value)
  | left {op left right} : left.MentionsThis → MentionsThis (.binary op left right)
  | right {op left right} : right.MentionsThis → MentionsThis (.binary op left right)
  | operand {op operand} : operand.MentionsThis → MentionsThis (.unary op operand)
  | call {function args arg} : arg ∈ args → arg.MentionsThis → MentionsThis (.call function args)
  | callOn {receiver name args type} : receiver.MentionsThis →
      MentionsThis (.methodCall receiver name args type)
  | callNamed {receiver value args type} : value.MentionsThis →
      MentionsThis (.methodCall receiver (.computed value) args type)
  | callWith {receiver name args type} {arg : Argument} : arg ∈ args → arg.value.MentionsThis →
      MentionsThis (.methodCall receiver name args type)
  | create {type args arg} : arg ∈ args → arg.MentionsThis → MentionsThis (.create type args)
  | fieldOf {receiver field} : receiver.MentionsThis → MentionsThis (.fieldLoad receiver field)
  | storeTo {receiver field value} : receiver.MentionsThis →
      MentionsThis (.fieldStore receiver field value)
  | stored {receiver field value} : value.MentionsThis →
      MentionsThis (.fieldStore receiver field value)
  | storedStatic {type field value} : value.MentionsThis →
      MentionsThis (.staticStore type field value)
  | entry {entries entry part} : entry ∈ entries → part ∈ ArrayEntry.parts entry →
      part.MentionsThis → MentionsThis (.array entries)
  | instanceOf {value type} : value.MentionsThis → MentionsThis (.instanceOf value type)

/-- Why there may be no code for an expression that needs no context: there is no `this`, or the
argument slot of a parameter cannot be addressed. -/
inductive LacksThisOrSlot (env : BodyEnv) (this : Prop) : Cause → Prop
  | this : env.isStatic = true → this → LacksThisOrSlot env this (.invariant .thisInStaticBody)
  | slot {index : Nat} : index < env.params.length → argumentLimit ≤ index + 1 →
      LacksThisOrSlot env this (.capacity .argument (index + 2) argumentLimit)

theorem LacksThisOrSlot.mono {env : BodyEnv} {this this' : Prop} (h : this → this')
    {cause : Cause} (lacks : LacksThisOrSlot env this cause) : LacksThisOrSlot env this' cause := by
  cases lacks with
  | this isStatic mentioned => exact .this isStatic (h mentioned)
  | slot lt limit => exact .slot lt limit

/-- The code needs nothing outside its frame but objects. -/
abbrev StaysInside (env : BodyEnv) (this : Prop) (step : Emit Unit) : Prop :=
  WritesOnly (fun i => i.staysInside = true) (LacksThisOrSlot env this) step

section Expressions

variable {env : BodyEnv} {this : Prop}

theorem StaysInside.mono {this' : Prop} {step : Emit Unit} (h : StaysInside env this step)
    (mentions : this → this') : StaysInside env this' step :=
  WritesOnly.mono h (fun _ own => own) fun _ => LacksThisOrSlot.mono mentions

theorem staysInside_loadThis (mentioned : this) : StaysInside env this (loadThis env) := by
  unfold loadThis
  split
  case isTrue isStatic => exact .throw (.this isStatic mentioned)
  case isFalse => exact .emit rfl

theorem staysInside_loadLiteral (literal : Literal) :
    StaysInside env this (loadLiteral literal) := by
  cases literal <;> exact .emit rfl

/-- Without a context among the parameters, a variable is a parameter with a slot or a local. -/
theorem meaning_of_noContext (noContext : ∀ param ∈ env.params, param.isContext = false)
    (name : String) :
    (∃ index < env.params.length, env.meaning name = .parameter index) ∨
      env.meaning name = .local := by
  unfold BodyEnv.meaning
  split
  case h_1 => exact .inr rfl
  case h_2 index found =>
    obtain ⟨lt, -⟩ := List.findIdx?_eq_some_iff_getElem.mp found
    rw [List.getElem?_eq_getElem lt]
    dsimp only
    rw [noContext _ (List.getElem_mem lt)]
    exact .inl ⟨index, lt, rfl⟩

theorem writesOnly_argumentSlot {index : Nat} (lt : index < env.params.length) :
    WritesOnly (fun i => i.staysInside = true) (LacksThisOrSlot env this) (argumentSlot index) := by
  unfold argumentSlot
  split
  case isTrue => exact .pure _
  case isFalse beyond => exact .throw (.slot lt (Nat.not_lt.mp beyond))

theorem writesOnly_withSlots (f : Slots → LocalId × Slots) :
    WritesOnly (fun i => i.staysInside = true) (LacksThisOrSlot env this) (withSlots f) :=
  .withAssembler fun _ => rfl

/-! ### Operators -/

variable {left right : Emit Unit}

theorem staysInside_lowerLogical (decidedBy : Bool) (hl : StaysInside env this left)
    (hr : StaysInside env this right) : StaysInside env this (lowerLogical decidedBy left right) := by
  have labelled : WritesOnly (fun i => i.staysInside = true) (LacksThisOrSlot env this) defineLabel :=
    .withAssembler fun asm => by simp [Assembler.defineLabel]
  have branched (kind : BranchKind) (l : Label) : StaysInside env this (branch kind l) :=
    .branch (by cases kind <;> rfl) l
  have marked (l : Label) : StaysInside env this (mark l) := .onAssembler fun asm => asm.code_mark
  have constant (b : Bool) : StaysInside env this (emit (.loadBool b)) := .emit rfl
  exact labelled.bind fun _ => labelled.bind fun _ => hl.bind fun _ => (branched _ _).bind fun _ =>
    hr.bind fun _ => (branched _ _).bind fun _ => (constant _).bind fun _ =>
    (branched _ _).bind fun _ => (marked _).bind fun _ => (constant _).bind fun _ => marked _

theorem staysInside_lowerBinary (op : BinaryOp) (hl : StaysInside env this left)
    (hr : StaysInside env this right) : StaysInside env this (lowerBinary op left right) := by
  cases op with
  | and | or => exact staysInside_lowerLogical _ hl hr
  | _ => exact hl.bind fun _ => hr.bind fun _ => .emit rfl

theorem staysInside_lowerFieldStore (field : String) (hl : StaysInside env this left)
    (hr : StaysInside env this right) : StaysInside env this (lowerFieldStore left field right) := by
  have written {i : Instruction} (own : i.staysInside = true) : StaysInside env this (emit i) :=
    .emit own
  exact hl.bind fun _ => hr.bind fun _ => (writesOnly_withSlots _).bind fun _ =>
    (written rfl).bind fun _ => (written rfl).bind fun _ => (written rfl).bind fun _ =>
    (written rfl).bind fun _ => .onAssembler fun _ => rfl

theorem staysInside_pushEntries (keyed : Bool) {entries : List LoweredEntry}
    (h : ∀ entry ∈ entries, (∀ key ∈ entry.key, StaysInside env this key) ∧
      StaysInside env this entry.value) : StaysInside env this (pushEntries keyed entries) := by
  induction entries with
  | nil => exact .pure ()
  | cons entry rest ih =>
    obtain ⟨⟨keys, value⟩, rest⟩ := List.forall_mem_cons.mp h
    have behind := value.bind fun _ => ih rest
    unfold pushEntries
    split
    case isTrue =>
      refine WritesOnly.bind ?_ fun _ => behind
      cases given : entry.key with
      | none => exact .emit rfl
      | some code => exact keys code given
    case isFalse => exact behind

/-- The parts of an array that needs no context need none. -/
theorem requiresContext_part {entries : List ArrayEntry}
    (free : entriesRequireContext entries = false) {entry : ArrayEntry} (mem : entry ∈ entries)
    {part : Expr} (own : part ∈ entry.parts) : part.requiresContext = false := by
  induction entries with
  | nil => cases mem
  | cons first rest ih =>
    simp only [entriesRequireContext, Bool.or_eq_false_iff] at free
    rcases List.mem_cons.mp mem with rfl | mem
    · cases entry with
      | item value =>
        obtain rfl := List.mem_singleton.mp own
        simpa [ArrayEntry.requiresContext] using free.1
      | keyed key value =>
        have free := free.1
        simp only [ArrayEntry.requiresContext, Bool.or_eq_false_iff] at free
        simp only [ArrayEntry.parts, List.mem_cons, List.not_mem_nil, or_false] at own
        rcases own with rfl | rfl
        · exact free.1
        · exact free.2
    · exact ih free.2 mem

/-! ### Variables and whole expressions -/

variable (noContext : ∀ param ∈ env.params, param.isContext = false) (name : String)
include noContext

theorem staysInside_loadVariable : StaysInside env this (loadVariable env name) := by
  unfold loadVariable
  obtain ⟨index, lt, meaning⟩ | meaning := meaning_of_noContext noContext name
  · rw [meaning]
    exact (writesOnly_argumentSlot lt).bind fun _ => .emit rfl
  · rw [meaning]
    exact (writesOnly_withSlots _).bind fun _ => .emit rfl

theorem staysInside_storeVariable : StaysInside env this (storeVariable env name) := by
  unfold storeVariable
  obtain ⟨index, lt, meaning⟩ | meaning := meaning_of_noContext noContext name
  · rw [meaning]
    exact (writesOnly_argumentSlot lt).bind fun _ => .emit rfl
  · rw [meaning]
    exact (writesOnly_withSlots _).bind fun _ => .emit rfl

/-- **The code of an expression that needs no context** stays inside its frame, and there is code for
it unless it mentions `this` where there is none, or a parameter that has no slot. -/
theorem staysInside_emitValue (e : Expr) (free : e.requiresContext = false) :
    StaysInside env e.MentionsThis (emitValue env e) := by
  unfold emitValue
  induction e using Expr.induction with
  | literal value =>
    rw [lower]
    exact staysInside_loadLiteral value
  | var name =>
    rw [lower]
    exact staysInside_loadVariable noContext name
  | this =>
    rw [lower]
    exact staysInside_loadThis .this
  | call | methodCall | create | staticLoad | staticStore => simp [Expr.requiresContext] at free
  | assign target value ih =>
    rw [lower]
    have written : StaysInside env (Expr.assign target value).MentionsThis (emit .dup) := .emit rfl
    exact ((ih (by simpa [Expr.requiresContext] using free)).mono .assign).bind fun _ =>
      written.bind fun _ => staysInside_storeVariable noContext target
  | binary op left right ihl ihr =>
    simp only [Expr.requiresContext, Bool.or_eq_false_iff] at free
    rw [lower]
    exact staysInside_lowerBinary op ((ihl free.1).mono .left) ((ihr free.2).mono .right)
  | unary op operand ih =>
    rw [lower]
    exact ((ih (by simpa [Expr.requiresContext] using free)).mono .operand).bind fun _ => .emit rfl
  | fieldLoad receiver field ih =>
    rw [lower]
    exact ((ih (by simpa [Expr.requiresContext] using free)).mono .fieldOf).bind fun _ => .emit rfl
  | instanceOf value type ih =>
    rw [lower]
    exact ((ih (by simpa [Expr.requiresContext] using free)).mono .instanceOf).bind fun _ =>
      .emit rfl
  | fieldStore receiver field value ihr ihv =>
    simp only [Expr.requiresContext, Bool.or_eq_false_iff] at free
    rw [lower]
    exact staysInside_lowerFieldStore field ((ihr free.1).mono .storeTo)
      ((ihv free.2).mono .stored)
  | array entries ih =>
    simp only [Expr.requiresContext] at free
    rw [lower, lowerEntries_eq]
    refine (staysInside_pushEntries _ fun lowered mem => ?_).bind fun _ => .emit rfl
    obtain ⟨entry, own, rfl⟩ := List.mem_map.mp mem
    have parts (part) (there : part ∈ entry.parts) :
        StaysInside env (Expr.array entries).MentionsThis (lower env part).value :=
      (ih entry own part there (requiresContext_part free own there)).mono (.entry own there)
    cases entry with
    | item value =>
      refine ⟨fun code given => ?_, parts value (by simp [ArrayEntry.parts])⟩
      cases given
    | keyed key value =>
      refine ⟨fun code given => ?_, parts value (by simp [ArrayEntry.parts])⟩
      obtain rfl := Option.some.inj given
      exact parts key (by simp [ArrayEntry.parts])

end Expressions

end StackScript
