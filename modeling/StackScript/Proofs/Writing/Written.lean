import StackScript.Proofs.Writing.Straight
import StackScript.Proofs.Writing.Shapes
import StackScript.Proofs.Writing.Sites

/-!
# How code is written

Expressions, statements and the members of types are written by a few kinds of steps: instructions
one behind the other, call sites with new numbers, and branches that stay inside an operator or skip
a stretch of code. What holds of all code that is written is shown for each kind of step once. In
particular, what every single touch of the code keeps up, and every call through a site whose
operands keep it up, all writing does.

## Main definitions

* `Written env item a b step`: a step that writes, in front of which `a` is known, and `b` behind
* `Assembler.Touch`: the single touches
* `KeepsUp`: what a step keeps up

## Main results

* `written_emitValue`, `written_emitStatements`: expressions and statements
* `Written.keeps`: what the touches and the calls keep up
-/

namespace StackScript

open Emit

variable {d d' : Draft} {env : BodyEnv}

/-- Any number of values more. -/
def Shape.pushMany (a : Shape) (n : Nat) : Shape :=
  { a with cells := List.replicate n .any ++ a.cells }

/-- What is known behind the receiver, the context, and the values of a call through a site. -/
def Shape.pushCall (a : Shape) (n : Nat) : Shape := ((a.push .any).push .context).pushMany n

/-- Code that is skipped if a value is false. -/
def skipUnless (test code : Emit Unit) : Emit Unit := do
  let skip ← defineLabel
  test
  branch .ifFalse skip
  code
  mark skip

/-- **The steps that write code**, with what is known in front of the code and behind it. -/
inductive Written (env : BodyEnv) (item : WorkItem) : {α : Type} → Shape → Shape → Emit α → Prop where
  | pure {α a} (x : α) : Written env item a a (pure x)
  | throw {α a b} (cause : Cause) : Written env item a b (throw cause : Emit α)
  | bind {α β a b c} {step : Emit α} {next : α → Emit β} : Written env item a b step →
      (∀ x, Written env item b c (next x)) → Written env item a c (step >>= next)
  | forget {α a b c} {step : Emit α} : Written env item a b step → b.Fits c →
      Written env item a c step
  | emit {a i} : Admits env.table item a.cells i → i.target? = none → i.pops ≤ a.cells.length →
      Written env item a (i.after a) (emit i)
  | site {a} (call : LateCall) :
      Written env item a (a.pushCall call.shapes.length) (call.operands env) →
      Written env item a (a.push .any) (call.write env)
  | slot {a} (f : Slots → LocalId × Slots) : Written env item a a (withSlots f)
  | release {a} (id : LocalId) : Written env item a a (release id)
  | sequencePoint {a} (span : Span) :
      Written env item a a (onAssembler (·.sequencePoint span))
  | logical {a} (decidedBy : Bool) {left right : Emit Unit} :
      Written env item a (a.push .any) left → Written env item a (a.push .any) right →
      Written env item a (a.push .any) (lowerLogical decidedBy left right)
  | skip {a} {test code : Emit Unit} : Written env item a (a.push .any) test →
      Written env item a a code → Written env item a a (skipUnless test code)

/-- A call through a site: its operands, and the instruction with a new number. -/
theorem parts_of_ends_lateCall {call : LateCall} {u : Unit} (ends : Ends (call.write env) d u d') :
    ∃ d₁, Ends (call.operands env) d ⟨⟩ d₁ ∧
      d' = ⟨d₁.asm.emit (.callSite ⟨d₁.nextSite, call.selector, call.shapes⟩), d₁.nextSite + 1⟩ := by
  obtain ⟨_, d₁, operands, ends⟩ := ends_bind.mp ends
  simp only [writeSite, ends_bind, ends_nextSite, ends_emit] at ends
  obtain ⟨_, _, ⟨rfl, rfl⟩, rfl⟩ := ends
  exact ⟨d₁, operands, rfl⟩

/-- The parts of code that a test skips: a label, and the branch between them. -/
theorem parts_of_ends_skipUnless {test code : Emit Unit} {u : Unit}
    (ends : Ends (skipUnless test code) d u d') :
    ∃ d₁ d₂, Ends test ⟨d.asm.defineLabel.2, d.nextSite⟩ ⟨⟩ d₁ ∧
      Ends code ⟨d₁.asm.branch .ifFalse d.asm.labels.size, d₁.nextSite⟩ ⟨⟩ d₂ ∧
      d' = ⟨d₂.asm.mark d.asm.labels.size, d₂.nextSite⟩ := by
  simp only [skipUnless, ends_bind, ends_defineLabel, ends_branch, ends_mark] at ends
  obtain ⟨_, _, ⟨rfl, rfl⟩, _, d₁, first, _, _, rfl, _, d₂, second, rfl⟩ := ends
  exact ⟨d₁, d₂, first, second, rfl⟩

/-! ## How deep the stack is -/

/-- **Code is as deep as it is known to be**, and leaves the labels alone that were there before it. -/
theorem Written.levels {item : WorkItem} {a b : Shape} {α : Type} {step : Emit α}
    (h : Written env item a b step) {x : α} (ends : Ends step d x d') :
    Assembler.Levels d.asm.labels.size ((b.cells.length : Int) - a.cells.length) d.asm d'.asm := by
  induction h generalizing d d' with
  | pure =>
    obtain ⟨-, rfl⟩ := ends_pure.mp ends
    exact (Assembler.Levels.refl _).cast (Int.sub_self _).symm
  | throw => exact (not_ends_throw ends).elim
  | bind _ _ ih ih' =>
    obtain ⟨y, d₁, first, second⟩ := ends_bind.mp ends
    refine ((ih first).bind (ih' y second)).cast ?_
    omega
  | forget _ fits ih =>
    rw [← fits.length]
    exact ih ends
  | emit _ _ pops =>
    rw [ends_emit.mp ends]
    refine Assembler.levels_emit.cast ?_
    rw [Instruction.length_after pops]
    omega
  | @site a call _ ih =>
    obtain ⟨d₁, operands, rfl⟩ := parts_of_ends_lateCall ends
    refine ((ih operands).bind Assembler.levels_emit).cast ?_
    simp only [Shape.pushCall, Shape.pushMany, Shape.cells_push, List.length_append,
      List.length_replicate, List.length_cons, Instruction.pops, Instruction.pushes,
      SiteShape.pushedCount]
    omega
  | slot =>
    obtain ⟨-, rfl⟩ := ends_withSlots.mp ends
    rw [Int.sub_self]
    exact Assembler.levels_same rfl rfl rfl
  | release =>
    rw [ends_release.mp ends]
    rw [Int.sub_self]
    exact Assembler.levels_same rfl rfl rfl
  | sequencePoint =>
    rw [ends_onAssembler.mp ends]
    rw [Int.sub_self]
    exact Assembler.levels_same rfl rfl rfl
  | @logical a decidedBy _ _ _ _ ihl ihr =>
    obtain ⟨d₁, d₂, hleft, hright, rfl⟩ := parts_of_ends_lowerLogical ends
    have left : Assembler.Levels d.asm.labels.size 1 d.asm.defineLabel.2.defineLabel.2 d₁.asm :=
      ((ihl hleft).cast (a.length_push _)).weaken (by simp only [Assembler.labels_defineLabel]; omega)
    have right : Assembler.Levels d₁.asm.labels.size 1
        (d₁.asm.branch (.deciding decidedBy) d.asm.labels.size) d₂.asm :=
      ((ihr hright).cast (a.length_push _)).weaken (by simp)
    rw [a.length_push]
    dsimp only
    exact left.logical right
  | @skip a _ _ _ _ ihl ihr =>
    obtain ⟨d₁, d₂, htest, hcode, rfl⟩ := parts_of_ends_skipUnless ends
    have test : Assembler.Levels d.asm.labels.size 1 d.asm.defineLabel.2 d₁.asm :=
      ((ihl htest).cast (a.length_push _)).weaken (by simp)
    have code : Assembler.Levels d₁.asm.labels.size 0 (d₁.asm.branch .ifFalse d.asm.labels.size)
        d₂.asm :=
      ((ihr hcode).cast (Int.sub_self _)).weaken (by simp)
    rw [Int.sub_self]
    exact test.skip code

section Steps

variable {env : BodyEnv} {item : WorkItem} {a b : Shape} {entries : List LoweredEntry}
    {field : String} {i : Instruction} {param : Parameter} {type : QualifiedName} (name : String)
    (params : List Parameter) (below : List Operand) (e : Expr)

/-- An instruction that refers to nothing outside the body. -/
theorem written_inward (inward : i.isInward = true) (pops : i.pops ≤ a.cells.length)
    (after : (i.after a).Fits b) : Written env item a b (emit i) := by
  refine (Written.emit (.inward inward) ?_ pops).forget after
  cases i <;> first | rfl | cases inward

/-- A value from anywhere in the body. -/
theorem written_pushed (inward : i.isInward = true) (pops : i.pops = 0)
    (after : (i.after a).Fits (a.push .any)) : Written env item a (a.push .any) (emit i) :=
  written_inward inward (by omega) after

/-! ## Variables -/

theorem written_loadContext : Written env item a (a.push .context) (loadContext env) := by
  unfold loadContext
  split
  · exact written_inward rfl (Nat.zero_le _) (.refl _)
  · exact .throw _

theorem written_loadThis : Written env item a (a.push .any) (loadThis env) := by
  unfold loadThis
  split
  · exact .throw _
  · exact written_pushed rfl rfl (.refl _)

theorem written_loadLiteral (literal : Literal) :
    Written env item a (a.push .any) (loadLiteral literal) := by
  cases literal <;> exact written_pushed rfl rfl (.refl _)

theorem written_argumentSlot (index : Nat) :
    Written env item a a (argumentSlot index) := by
  unfold argumentSlot
  split
  · exact .pure _
  · exact .throw _

theorem written_loadVariable : Written env item a (a.push .any) (loadVariable env name) := by
  unfold loadVariable
  split
  · exact written_loadContext.forget (a.fits_push_any _)
  · exact (written_argumentSlot _).bind fun _ => written_pushed rfl rfl (.refl _)
  · exact (Written.slot _).bind fun _ => written_pushed rfl rfl (.refl _)

/-- The last value is taken from the stack. -/
theorem written_popped {cell : Operand} (inward : i.isInward = true) (pops : i.pops = 1)
    (after : (i.after (a.push cell)).Fits a) : Written env item (a.push cell) a (emit i) :=
  written_inward inward (by simp [pops]) after

theorem written_storeVariable : Written env item (a.push .any) a (storeVariable env name) := by
  unfold storeVariable
  split
  · exact .throw _
  · exact (written_argumentSlot _).bind fun _ => written_popped rfl rfl (.refl _)
  · exact (Written.slot _).bind fun _ => written_popped rfl rfl (.refl _)

/-! ## Arguments -/

/-- The code of an expression leaves its value, or nothing if only its effect counts. -/
structure Lowered.Written (env : BodyEnv) (item : WorkItem) (lowered : Lowered) : Prop where
  value : ∀ a, StackScript.Written env item a (a.push .any) lowered.value
  effect : ∀ a, StackScript.Written env item a a lowered.effect

variable {args : List Lowered}

theorem written_ofValue {value : Emit Unit} (h : ∀ a, Written env item a (a.push .any) value) :
    (Lowered.ofValue value).Written env item where
  value := h
  effect a := (h a).bind fun _ => written_popped rfl rfl (.refl _)

theorem written_dropArguments (h : ∀ arg ∈ args, arg.Written env item) :
    Written env item a a (dropArguments args) := by
  induction args with
  | nil => exact .pure _
  | cons arg rest ih =>
    obtain ⟨harg, hrest⟩ := List.forall_mem_cons.mp h
    exact (harg.effect a).bind fun _ => ih hrest

theorem Shape.pushMany_succ (a : Shape) (n : Nat) :
    a.pushMany (n + 1) = (a.push .any).pushMany n := by
  simp [pushMany, push, List.replicate_succ']

theorem written_pushAll (h : ∀ arg ∈ args, arg.Written env item) :
    Written env item a (a.pushMany args.length) (pushAll args) := by
  induction args generalizing a with
  | nil => exact .pure _
  | cons arg rest ih =>
    obtain ⟨harg, hrest⟩ := List.forall_mem_cons.mp h
    rw [List.length_cons, Shape.pushMany_succ]
    exact (harg.value a).bind fun _ => ih hrest

/-- An instruction that takes all of them, and more, leaves a value. -/
theorem Shape.taken (a : Shape) (n k : Nat) :
    (⟨.any :: (a.pushMany n).cells.drop (n + k), (a.pushMany n).stores⟩ : Shape) =
      ⟨.any :: a.cells.drop k, a.stores⟩ := by
  simp [pushMany, List.drop_append]

/-- One value per parameter more. -/
def Shape.pushParams (a : Shape) (params : List Parameter) : Shape :=
  { a with cells := (params.map Parameter.cell).reverse ++ a.cells }

theorem Shape.pushParams_cons (a : Shape) (param : Parameter) (params : List Parameter) :
    a.pushParams (param :: params) = (a.push param.cell).pushParams params := by
  simp [pushParams, push]

theorem Parameter.cell_of_context (h : param.type = .context) : param.cell = .context := by
  simp [cell, isContext, h]

theorem Parameter.cell_of_value {hint : TypeHint} (h : param.type = .value hint) :
    param.cell = .any := by
  simp [cell, isContext, h]

theorem written_pushArguments {callee : String} {params : List Parameter}
    (h : ∀ arg ∈ args, arg.Written env item) :
    Written env item a (a.pushParams params) (pushArguments env callee params args) := by
  induction params generalizing args a with
  | nil => exact written_dropArguments h
  | cons param params ih =>
    rw [Shape.pushParams_cons]
    unfold pushArguments
    split
    case h_1 isContext =>
      rw [Parameter.cell_of_context isContext]
      exact written_loadContext.bind fun _ => ih h
    case h_2 isValue =>
      rw [Parameter.cell_of_value isValue]
      obtain ⟨harg, hrest⟩ := List.forall_mem_cons.mp h
      exact (harg.value a).bind fun _ => ih hrest
    case h_3 isValue _ =>
      rw [Parameter.cell_of_value isValue]
      exact (written_loadLiteral _).bind fun _ => ih nofun
    case h_4 => exact .throw _

/-! ## Calls and creations -/

@[simp] theorem length_framed :
    (framed params below).length = params.length + 1 + below.length := by
  simp [framed]
  omega

theorem drop_framed (n : Nat) :
    (framed params below).drop (params.length + 1 + n) = below.drop n := by
  rw [framed, List.drop_append, List.drop_eq_nil_of_le (by simp; omega), List.length_reverse,
    List.length_map, Nat.add_assoc, Nat.add_sub_cancel_left, Nat.add_comm, List.drop_succ_cons,
    List.nil_append]

/-- An instruction that takes the values of parameters, the context, and what is below. -/
theorem written_framed {params : List Parameter} {below : List Operand} {stores : List Instruction}
    {n : Nat} (admits : Admits env.table item (framed params below) i) (target : i.target? = none)
    (pops : i.pops = params.length + 1 + n) (le : n ≤ below.length)
    (after : ∀ shape, i.after shape = ⟨.any :: shape.cells.drop i.pops, shape.stores⟩) :
    Written env item ⟨framed params below, stores⟩ ⟨.any :: below.drop n, stores⟩ (emit i) := by
  have written : Written env item ⟨framed params below, stores⟩ _ (emit i) :=
    .emit admits target (by simp [pops, le])
  rwa [after, pops, drop_framed] at written

theorem written_lowerCall {function : QualifiedName} (h : ∀ arg ∈ args, arg.Written env item) :
    Written env item a (a.push .any) (lowerCall env function args) := by
  unfold lowerCall
  split
  case h_1 entry declared =>
    refine written_loadContext.bind fun _ => (written_pushArguments h).bind fun _ => ?_
    exact written_framed (.function declared) rfl (by simp [Instruction.pops]) (Nat.zero_le _)
      fun _ => rfl
  case h_2 =>
    refine written_loadContext.bind fun _ => (written_pushAll h).bind fun _ => ?_
    exact written_inward rfl (by simp [Instruction.pops, Shape.pushMany])
      (.of_eq (Shape.taken _ _ 1))

/-- Values one behind the other. -/
theorem written_oneByOne {steps : List (Emit Unit)}
    (h : ∀ step ∈ steps, ∀ a, Written env item a (a.push .any) step) :
    Written env item a (a.pushMany steps.length) (oneByOne steps) := by
  induction steps generalizing a with
  | nil => exact .pure _
  | cons step rest ih =>
    obtain ⟨hstep, hrest⟩ := List.forall_mem_cons.mp h
    rw [List.length_cons, Shape.pushMany_succ]
    exact (hstep a).bind fun _ => ih hrest

/-- A call through a site, whose receiver and values are written. -/
theorem written_lateCall {call : LateCall}
    (receiver : ∀ a, Written env item a (a.push .any) (call.receiver env))
    (values : ∀ value ∈ call.values env, ∀ a, Written env item a (a.push .any) value) :
    Written env item a (a.push .any) (call.write env) := by
  refine .site call ((receiver a).bind fun _ => written_loadContext.bind fun _ => ?_)
  rw [← call.length_values env]
  exact written_oneByOne values

theorem written_lowerMethodCall {receiver : Expr} {name : MethodName} {args : List Argument}
    {receiverType : Option QualifiedName} (hr : (lower env receiver).Written env item)
    (hn : ∀ part ∈ name.parts, (lower env part).Written env item)
    (h : ∀ arg ∈ args, (lower env arg.value).Written env item) :
    Written env item a (a.push .any) (lowerMethodCall env (lower env receiver).value
      (lowerName env name) (args.map (lowerArgument env)) receiverType) := by
  unfold lowerMethodCall
  split
  case h_1 entry method target =>
    have codes : ∀ code ∈ (args.map (lowerArgument env)).map (·.code), code.Written env item := by
      intro code mem
      rw [List.map_map] at mem
      obtain ⟨arg, arg_mem, rfl⟩ := List.mem_map.mp mem
      rw [Function.comp_apply, code_lowerArgument]
      exact h arg arg_mem
    refine (hr.value a).bind fun _ => written_loadContext.bind fun _ =>
      (written_pushArguments codes).bind fun _ => ?_
    obtain ⟨type, name, resolved, instance_⟩ : ∃ type name,
        env.table.resolveMethod? type name = some (entry, method) ∧ method.isStatic = false := by
      unfold directTarget? at target
      grind
    exact written_framed (n := 1) (.method resolved instance_) rfl (by simp [Instruction.pops])
      (by simp) fun _ => rfl
  case h_2 =>
    have arguments : ∀ value ∈ args.map (fun arg => emitValue env arg.value), ∀ a,
        Written env item a (a.push .any) value := by
      intro value mem
      obtain ⟨arg, arg_mem, rfl⟩ := List.mem_map.mp mem
      exact (h arg arg_mem).value
    rw [lowerLateCall_eq]
    refine written_lateCall hr.value ?_
    cases name with
    | direct name => exact arguments
    | computed name =>
      exact List.forall_mem_cons.mpr ⟨(hn name List.mem_cons_self).value, arguments⟩

theorem written_lowerCreate (h : ∀ arg ∈ args, arg.Written env item) :
    Written env item a (a.push .any) (lowerCreate env type args) := by
  unfold lowerCreate
  split
  case h_1 entry declared =>
    have admits (params : List Parameter) (same : initializerParams env.table entry = params) :
        Admits env.table item (framed params a.cells) (.newObject entry.name params.length) :=
      same ▸ .create declared
    refine written_loadContext.bind fun _ => ?_
    split
    case h_1 resolved =>
      refine (written_pushArguments h).bind fun _ => ?_
      exact written_framed (admits _ (by simp only [initializerParams, resolved])) rfl
        (by simp [Instruction.pops]) (Nat.zero_le _) fun _ => rfl
    case h_2 resolved =>
      refine (written_dropArguments h).bind fun _ => ?_
      exact written_framed (admits [] (by simp only [initializerParams, resolved])) rfl
        (by simp [Instruction.pops]) (Nat.zero_le _) fun _ => rfl
  case h_2 undeclared =>
    split
    · refine written_loadContext.bind fun _ => (written_pushAll h).bind fun _ => ?_
      exact (Written.emit (.conditionalCreate undeclared) rfl
        (by simp [Instruction.pops, Shape.pushMany])).forget (.of_eq (Shape.taken _ _ 1))
    · exact .throw _

/-! ## Static fields -/

/-- A step on a static field that resolves. -/
theorem written_onStatic {next : QualifiedName × Bool → Emit Unit}
    (h : ∀ entry, env.table.resolveStatic? type.text field = some entry →
      Written env item a b (next (entry.name, entry.bindsField field))) :
    Written env item a b (resolveStaticField env type field >>= next) := by
  unfold resolveStaticField
  split
  case h_1 entry resolved => exact h entry resolved
  case h_2 =>
    split
    · exact .throw _
    · exact .throw _

/-- An access to a static field that resolves. -/
theorem written_staticAccess {type : String} {entry : TypeEntry}
    (resolved : env.table.resolveStatic? type field = some entry) (store : Bool)
    (access : staticAccess (entry.bindsField field) store entry.name field = i)
    (le : i.pops ≤ a.cells.length) (after : (i.after a).Fits b) :
    Written env item a b (emit i) := by
  subst access
  refine (Written.emit (.static resolved) ?_ le).forget after
  cases entry.bindsField field <;> cases store <;> rfl

theorem written_loadStatic : Written env item a (a.push .any) (loadStatic env type field) := by
  refine written_onStatic fun entry resolved => ?_
  cases bound : entry.bindsField field with
  | false =>
    change Written _ _ _ _ (emit (.loadShared entry.name field))
    exact written_staticAccess resolved false (by rw [bound]; rfl) (Nat.zero_le _) (.refl _)
  | true =>
    change Written _ _ _ _ (loadContext env >>= fun _ => emit (.loadBound entry.name field))
    refine written_loadContext.bind fun _ => ?_
    exact written_staticAccess resolved false (by rw [bound]; rfl) (Nat.le_add_left 1 _) (.refl _)

/-- What a store leaves, where nobody asks for it. -/
theorem Shape.fits_stored (a : Shape) (i : Instruction) :
    Shape.Fits { a with stores := i :: a.stores } a where
  length := rfl
  context := id
  stores _ := List.mem_cons_of_mem _

theorem written_storeStatic {value : Emit Unit} (h : ∀ a, Written env item a (a.push .any) value)
    (keep : Bool) :
    Written env item a (if keep then a.push .any else a)
      (storeStatic env type field value keep) := by
  refine written_onStatic fun entry resolved => ?_
  cases bound : entry.bindsField field with
  | false =>
    have store {b : Shape} : Written env item (b.push .any) b
        (emit (.storeShared entry.name field)) :=
      written_staticAccess resolved true (by rw [bound]; rfl) (Nat.le_add_left 1 _)
        (b.fits_stored _)
    cases keep with
    | false => exact (h a).bind fun _ => store
    | true =>
      refine (h a).bind fun _ => Written.bind (b := (a.push .any).push .any) ?_ fun _ => store
      exact written_inward rfl (Nat.le_add_left 1 _) (.refl _)
  | true =>
    have store {b : Shape} : Written env item ((b.push .context).push .any) b
        (emit (.storeBound entry.name field)) :=
      written_staticAccess resolved true (by rw [bound]; rfl) (Nat.le_add_left 2 _)
        (b.fits_stored _)
    have load {b : Shape} (slot : LocalId) : Written env item b (b.push .any)
        (emit (.loadLocal slot)) :=
      written_pushed rfl rfl (.refl _)
    cases keep with
    | false => exact written_loadContext.bind fun _ => (h _).bind fun _ => store
    | true =>
      refine (h a).bind fun _ => (Written.slot _).bind fun slot =>
        (written_popped rfl rfl (.refl _)).bind fun _ => written_loadContext.bind fun _ => ?_
      exact (load slot).bind fun _ => store.bind fun _ => (load slot).bind fun _ => .release slot

theorem written_lowerFieldStore {receiver : Emit Unit} {value : Emit Unit}
    (hr : ∀ a, Written env item a (a.push .any) receiver)
    (hv : ∀ a, Written env item a (a.push .any) value) :
    Written env item a (a.push .any) (lowerFieldStore receiver field value) := by
  have load {b : Shape} (slot : LocalId) : Written env item b (b.push .any)
      (emit (.loadLocal slot)) :=
    written_pushed rfl rfl (.refl _)
  refine (hr a).bind fun _ => (hv _).bind fun _ => (Written.slot _).bind fun slot =>
    (written_popped rfl rfl (.refl _)).bind fun _ => (load slot).bind fun _ => ?_
  exact Written.bind (b := a) (written_inward rfl (Nat.le_add_left 2 _) (.refl _)) fun _ =>
    (load slot).bind fun _ => .release slot

/-! ## Operators and arrays -/

/-- An instruction that takes two values and leaves one. -/
theorem written_combined (inward : i.isInward = true) (pops : i.pops = 2)
    (after : (i.after ((a.push .any).push .any)).Fits (a.push .any)) :
    Written env item ((a.push .any).push .any) (a.push .any) (emit i) :=
  written_inward inward (by simp [pops]) after

/-- An instruction that replaces a value by another. -/
theorem written_replaced (inward : i.isInward = true) (pops : i.pops = 1)
    (after : (i.after (a.push .any)).Fits (a.push .any)) :
    Written env item (a.push .any) (a.push .any) (emit i) :=
  written_inward inward (by simp [pops]) after

theorem written_lowerBinary {op : BinaryOp} {left right : Emit Unit}
    (hl : ∀ a, Written env item a (a.push .any) left)
    (hr : ∀ a, Written env item a (a.push .any) right) :
    Written env item a (a.push .any) (lowerBinary op left right) := by
  cases op
  case and => exact .logical false (hl a) (hr a)
  case or => exact .logical true (hl a) (hr a)
  all_goals
    exact (hl a).bind fun _ => (hr _).bind fun _ => written_combined rfl rfl (.refl _)

/-- The code of an entry of an array leaves the value, and that of its key the key. -/
structure LoweredEntry.Written (env : BodyEnv) (item : WorkItem) (entry : LoweredEntry) :
    Prop where
  key : ∀ code ∈ entry.key, ∀ a, StackScript.Written env item a (a.push .any) code
  value : ∀ a, StackScript.Written env item a (a.push .any) entry.value

theorem written_pushEntries {keyed : Bool} (h : ∀ entry ∈ entries, entry.Written env item) :
    Written env item a (a.pushMany (if keyed then entries.length * 2 else entries.length))
      (pushEntries keyed entries) := by
  induction entries generalizing a with
  | nil =>
    rw [List.length_nil, Nat.zero_mul, ite_self]
    exact .pure _
  | cons entry rest ih =>
    obtain ⟨hentry, hrest⟩ := List.forall_mem_cons.mp h
    unfold pushEntries
    cases keyed with
    | false =>
      simp only [Bool.false_eq_true, if_false, List.length_cons] at ih ⊢
      rw [Shape.pushMany_succ]
      exact (hentry.value a).bind fun _ => ih hrest
    | true =>
      simp only [if_true, List.length_cons] at ih ⊢
      have key : Written env item a (a.push .any) (entry.key.getD (emit .loadNull)) := by
        cases given : entry.key with
        | none => exact written_pushed rfl rfl (.refl _)
        | some code => exact hentry.key code given a
      rw [Nat.succ_mul, Shape.pushMany_succ, Shape.pushMany_succ]
      exact key.bind fun _ => (hentry.value _).bind fun _ => ih hrest

theorem written_lowerArray (h : ∀ entry ∈ entries, entry.Written env item) :
    Written env item a (a.push .any) (lowerArray entries) := by
  refine (written_pushEntries h).bind fun _ => written_inward rfl ?_ (.of_eq ?_)
  · simp [Instruction.pops, Shape.pushMany]
  · exact Shape.taken a _ 0

/-! ## Expressions -/

theorem written_lower : (lower env e).Written env item := by
  have replaced {a : Shape} {i : Instruction} {value : Emit Unit}
      (h : ∀ a, Written env item a (a.push .any) value) (inward : i.isInward = true)
      (pops : i.pops = 1) (after : (i.after (a.push .any)).Fits (a.push .any)) :
      Written env item a (a.push .any) (do value; emit i) :=
    (h a).bind fun _ => written_replaced inward pops after
  induction e using Expr.induction with
  | literal value =>
    rw [lower]
    exact written_ofValue fun _ => written_loadLiteral value
  | var name =>
    rw [lower]
    exact written_ofValue fun _ => written_loadVariable name
  | assign target value ih =>
    rw [lower]
    refine ⟨fun a => ?_, fun a => (ih.value a).bind fun _ => written_storeVariable target⟩
    refine (ih.value a).bind fun _ => Written.bind (b := (a.push .any).push .any) ?_ fun _ =>
      written_storeVariable target
    exact written_inward rfl (Nat.le_add_left 1 _) (.refl _)
  | binary op left right ihl ihr =>
    rw [lower]
    exact written_ofValue fun _ => written_lowerBinary ihl.value ihr.value
  | unary op operand ih =>
    rw [lower]
    exact written_ofValue fun _ => replaced ih.value rfl rfl (.refl _)
  | call function args ih =>
    rw [lower, lowerAll_eq]
    refine written_ofValue fun _ => written_lowerCall fun code mem => ?_
    obtain ⟨arg, arg_mem, rfl⟩ := List.mem_map.mp mem
    exact ih arg arg_mem
  | methodCall receiver name args receiverType ihr ihn iha =>
    rw [lower, lowerArguments_eq]
    exact written_ofValue fun _ => written_lowerMethodCall ihr ihn iha
  | create type args ih =>
    rw [lower, lowerAll_eq]
    refine written_ofValue fun _ => written_lowerCreate fun code mem => ?_
    obtain ⟨arg, arg_mem, rfl⟩ := List.mem_map.mp mem
    exact ih arg arg_mem
  | this =>
    rw [lower]
    exact written_ofValue fun _ => written_loadThis
  | fieldLoad receiver field ih =>
    rw [lower]
    exact written_ofValue fun _ => replaced ih.value rfl rfl (.refl _)
  | fieldStore receiver field value ihr ihv =>
    rw [lower]
    refine ⟨fun _ => written_lowerFieldStore ihr.value ihv.value, fun a => ?_⟩
    exact (ihr.value a).bind fun _ => (ihv.value _).bind fun _ =>
      written_inward rfl (Nat.le_add_left 2 _) (.refl _)
  | staticLoad type field =>
    rw [lower]
    exact written_ofValue fun _ => written_loadStatic
  | staticStore type field value ih =>
    rw [lower]
    exact ⟨fun _ => written_storeStatic ih.value true, fun _ => written_storeStatic ih.value false⟩
  | array entries ih =>
    rw [lower, lowerEntries_eq]
    refine written_ofValue fun _ => written_lowerArray fun code mem => ?_
    obtain ⟨entry, entry_mem, rfl⟩ := List.mem_map.mp mem
    have ih := ih entry entry_mem
    cases entry with
    | item value =>
      rw [lowerEntry]
      exact ⟨nofun, (ih value List.mem_cons_self).value⟩
    | keyed key value =>
      rw [lowerEntry]
      refine ⟨fun code given => ?_, (ih value (List.mem_cons_of_mem _ List.mem_cons_self)).value⟩
      cases given
      exact (ih key List.mem_cons_self).value
  | instanceOf value type ih =>
    rw [lower]
    exact written_ofValue fun _ => replaced ih.value rfl rfl (.refl _)

theorem written_emitValue : Written env item a (a.push .any) (emitValue env e) :=
  (written_lower e).value a

theorem written_emitEffect : Written env item a a (emitEffect env e) :=
  (written_lower e).effect a

/-! ## Statements -/

/-- The value on the stack becomes the result of the body. -/
theorem written_storeResult :
    Written env item (a.push .any) a (do emit (.storeLocal (← withSlots (·.result)))) :=
  (Written.slot _).bind fun _ => written_popped rfl rfl (.refl _)

theorem written_emitAction (action : Action) : Written env item a a (emitAction env action) := by
  cases action with
  | eval value => exact written_emitEffect value
  | echo value =>
    exact written_loadContext.bind fun _ => (written_emitValue value).bind fun _ =>
      written_inward rfl (Nat.le_add_left 2 _) (.refl _)
  | «return» value =>
    cases value with
    | some value => exact (written_emitValue value).bind fun _ => written_storeResult
    | none =>
      exact (written_pushed rfl rfl (.refl _)).bind fun _ => written_storeResult
  | throw value =>
    exact (written_emitValue value).bind fun _ => written_popped rfl rfl (.refl _)

theorem written_emitStatement (statement : Statement) :
    Written env item a a (emitStatement env statement) := by
  unfold emitStatement
  split
  · cases statement.span with
    | some span => exact (Written.sequencePoint span).bind fun _ => written_emitAction _
    | none => exact written_emitAction _
  · exact written_emitAction _

theorem written_emitStatements (statements : List Statement) :
    Written env item a a (emitStatements env statements) := by
  induction statements with
  | nil => exact .pure _
  | cons statement rest ih => exact (written_emitStatement statement).bind fun _ => ih

end Steps

/-! ## What writing keeps up -/

section Touches

/-- The single touches by which code is written, call sites apart. -/
inductive Assembler.Touch : (Assembler → Assembler) → Prop where
  | emit {i : Instruction} : i.site? = none → i.target? = none → Touch (·.emit i)
  | branch (kind : BranchKind) (l : Label) : Touch (·.branch kind l)
  | defineLabel : Touch (·.defineLabel.2)
  | mark (l : Label) : Touch (·.mark l)
  | slots (f : Slots → Slots) : Touch fun asm => { asm with slots := f asm.slots }
  | sequencePoint (span : Span) : Touch (·.sequencePoint span)

variable {α β : Type} {env : BodyEnv} {item : WorkItem} {P : Draft → Draft → Prop} {d : Draft}

/-- A step takes a draft to one that is related to it, whether it stops or not. -/
def KeepsUp (P : Draft → Draft → Prop) (d : Draft) (step : Emit α) : Prop := P d (step.run d).2

/-- What both parts of a sequence keep up, the sequence does. -/
theorem KeepsUp.bind {step : Emit α} {next : α → Emit β} (first : KeepsUp P d step)
    (trans : ∀ {d d₁ d'}, P d d₁ → P d₁ d' → P d d')
    (second : ∀ x d₁, Ends step d x d₁ → KeepsUp P d₁ (next x)) : KeepsUp P d (step >>= next) := by
  rw [KeepsUp, run_bind]
  cases ends : (step.run d).1 with
  | error => exact first
  | ok x => exact trans first (second x _ (Prod.ext ends rfl))

/-- **What the touches and the calls keep up, writing keeps up.** -/
theorem Written.keeps (refl : ∀ d, P d d) (trans : ∀ {d d₁ d'}, P d d₁ → P d₁ d' → P d d')
    (touch : ∀ f, Assembler.Touch f → ∀ d, P d { d with asm := f d.asm })
    (site : ∀ (call : LateCall) d d₁, Ends (call.operands env) d () d₁ →
      P d₁ ⟨d₁.asm.emit (.callSite ⟨d₁.nextSite, call.selector, call.shapes⟩), d₁.nextSite + 1⟩)
    {a b : Shape} {step : Emit α} (h : Written env item a b step) (d : Draft) :
    KeepsUp P d step := by
  have emitted {i : Instruction} (plain : i.site? = none) (target : i.target? = none) (d : Draft) :
      KeepsUp P d (Emit.emit i) := touch _ (.emit plain target) d
  have labelled (d : Draft) : KeepsUp P d defineLabel := touch _ .defineLabel d
  have branched (kind : BranchKind) (l : Label) (d : Draft) : KeepsUp P d (branch kind l) :=
    touch _ (.branch kind l) d
  have marked (l : Label) (d : Draft) : KeepsUp P d (mark l) := touch _ (.mark l) d
  induction h generalizing d with
  | pure | throw => exact refl d
  | bind _ _ ih ih' => exact (ih d).bind trans fun x d₁ _ => ih' x d₁
  | forget _ _ ih => exact ih d
  | emit admits target => exact emitted admits.site?_eq_none target d
  | site call _ ih => exact (ih d).bind trans fun _ d₁ operands => site call d d₁ operands
  | slot f => exact touch _ (.slots fun slots => (f slots).2) d
  | release id => exact touch _ (.slots fun slots => slots.release id) d
  | sequencePoint span => exact touch _ (.sequencePoint span) d
  | logical decidedBy _ _ ihl ihr =>
    refine (labelled d).bind trans fun short d₁ _ => (labelled d₁).bind trans fun done d₂ _ =>
      (ihl d₂).bind trans fun _ d₃ _ => (branched _ _ d₃).bind trans fun _ d₄ _ =>
        (ihr d₄).bind trans fun _ d₅ _ => (branched _ _ d₅).bind trans fun _ d₆ _ => ?_
    -- Behind the operands the results are written.
    exact (emitted rfl rfl d₆).bind trans fun _ d₇ _ => (branched _ _ d₇).bind trans fun _ d₈ _ =>
      (marked _ d₈).bind trans fun _ d₉ _ => (emitted rfl rfl d₉).bind trans fun _ d₁₀ _ =>
        marked _ d₁₀
  | skip _ _ iht ihc =>
    exact (labelled d).bind trans fun skip d₁ _ => (iht d₁).bind trans fun _ d₂ _ =>
      (branched _ _ d₂).bind trans fun _ d₃ _ => (ihc d₃).bind trans fun _ d₄ _ => marked _ d₄

end Touches

end StackScript
