import StackScript.Lowering.Expr

/-!
# Induction over expressions

Expressions are nested with the names, arguments and array entries that they contain. What is shown
of an expression may assume it of the parts, wherever they stand.

## Main definitions

* `MethodName.parts`, `ArrayEntry.parts`: the expressions inside

## Main results

* `Expr.induction`: induction over expressions
-/

namespace StackScript

/-- The expression of a computed name. -/
def MethodName.parts : MethodName → List Expr
  | .direct _ => []
  | .computed value => [value]

/-- The expressions of an entry. -/
def ArrayEntry.parts : ArrayEntry → List Expr
  | .item value => [value]
  | .keyed key value => [key, value]

section

variable {P : Expr → Prop}

/-- **Induction over expressions**: the parts come first, in whatever they are nested. -/
@[elab_as_elim]
theorem Expr.induction
    (literal : ∀ value, P (.literal value))
    (var : ∀ name, P (.var name))
    (assign : ∀ target value, P value → P (.assign target value))
    (binary : ∀ op left right, P left → P right → P (.binary op left right))
    (unary : ∀ op operand, P operand → P (.unary op operand))
    (call : ∀ function args, (∀ arg ∈ args, P arg) → P (.call function args))
    (methodCall : ∀ receiver name args receiverType, P receiver → (∀ part ∈ name.parts, P part) →
      (∀ arg ∈ args, P arg.value) → P (.methodCall receiver name args receiverType))
    (create : ∀ type args, (∀ arg ∈ args, P arg) → P (.create type args))
    (this : P .this)
    (fieldLoad : ∀ receiver field, P receiver → P (.fieldLoad receiver field))
    (fieldStore : ∀ receiver field value, P receiver → P value →
      P (.fieldStore receiver field value))
    (staticLoad : ∀ type field, P (.staticLoad type field))
    (staticStore : ∀ type field value, P value → P (.staticStore type field value))
    (array : ∀ entries, (∀ entry ∈ entries, ∀ part ∈ entry.parts, P part) → P (.array entries))
    (instanceOf : ∀ value type, P value → P (.instanceOf value type))
    (e : Expr) : P e :=
  @Expr.rec P
    (fun name => ∀ part ∈ name.parts, P part)
    (fun arg => P arg.value)
    (fun entry => ∀ part ∈ entry.parts, P part)
    (fun args => ∀ arg ∈ args, P arg)
    (fun args => ∀ arg ∈ args, P arg.value)
    (fun entries => ∀ entry ∈ entries, ∀ part ∈ entry.parts, P part)
    literal var assign binary unary call methodCall create this fieldLoad fieldStore staticLoad
    staticStore array instanceOf
    (fun _ _ h => by simp [MethodName.parts] at h)
    (fun _ hvalue part h => List.mem_singleton.mp h ▸ hvalue)
    (fun _ hvalue => hvalue)
    (fun _ hvalue => hvalue)
    (fun _ hvalue part h => List.mem_singleton.mp h ▸ hvalue)
    (fun _ _ hkey hvalue part h => by
      rcases List.mem_cons.mp h with rfl | h
      · exact hkey
      · exact List.mem_singleton.mp h ▸ hvalue)
    (fun _ h => by simp at h)
    (fun _ _ hhead htail part h => by
      rcases List.mem_cons.mp h with rfl | h
      · exact hhead
      · exact htail part h)
    (fun _ h => by simp at h)
    (fun _ _ hhead htail part h => by
      rcases List.mem_cons.mp h with rfl | h
      · exact hhead
      · exact htail part h)
    (fun _ h => by simp at h)
    (fun _ _ hhead htail part h => by
      rcases List.mem_cons.mp h with rfl | h
      · exact hhead
      · exact htail part h)
    e

end

section Lists

variable (env : BodyEnv)

@[simp] theorem lowerAll_eq (args : List Expr) : lowerAll env args = args.map (lower env) := by
  induction args with
  | nil => rw [lowerAll, List.map_nil]
  | cons arg rest ih => rw [lowerAll, ih, List.map_cons]

@[simp] theorem lowerArguments_eq (args : List Argument) :
    lowerArguments env args = args.map (lowerArgument env) := by
  induction args with
  | nil => rw [lowerArguments, List.map_nil]
  | cons arg rest ih => rw [lowerArguments, ih, List.map_cons]

@[simp] theorem lowerEntries_eq (entries : List ArrayEntry) :
    lowerEntries env entries = entries.map (lowerEntry env) := by
  induction entries with
  | nil => rw [lowerEntries, List.map_nil]
  | cons entry rest ih => rw [lowerEntries, ih, List.map_cons]

/-- The code of an argument is the code of its expression. -/
theorem code_lowerArgument (arg : Argument) :
    (lowerArgument env arg).code = lower env arg.value := by
  cases arg <;> rw [lowerArgument] <;> rfl

end Lists

end StackScript
