import StackScript.Lowering.Item
import StackScript.Proofs.Evaluation.Meaning
import StackScript.Proofs.Writing.Syntax

/-!
# Calls through sites

A call through a site pushes its receiver, the context, the name of the method if it is computed, and
the arguments. Only then it draws the number of its site, for the operands may have calls in them.

## Main definitions

* `LateCall`: a call through a site as the source has it
* `LateCall.operands`, `LateCall.write`: its code

## Main results

* `lowerLateCall_eq`, `invokeCode_eq`: the code of all calls through sites
-/

namespace StackScript

open Emit

/-- The number of a new call site, and the instruction that calls through it. -/
def writeSite (selector : Selector) (args : List ArgShape) : Emit Unit := do
  emit (.callSite ⟨← nextSite, selector, args⟩)

/-- Steps one behind the other. -/
def oneByOne : List (Emit Unit) → Emit Unit
  | [] => pure ()
  | step :: rest => do
    step
    oneByOne rest

/-- A call through a site, as the source has it. -/
inductive LateCall where
  | method (receiver : Expr) (name : MethodName) (args : List Argument)
  /-- An object is called like a function. -/
  | invoke

namespace LateCall

/-- How the method is named. -/
def selector : LateCall → Selector
  | .method _ (.direct name) _ => .direct name
  | .method _ (.computed _) _ => .computed
  | .invoke => .magic .invoke

/-- The shapes of the values behind the context. -/
def shapes : LateCall → List ArgShape
  | .method _ (.direct _) args => args.map Argument.shape
  | .method _ (.computed _) args => .value :: args.map Argument.shape
  | .invoke => [.unpacked]

variable (env : BodyEnv)

/-- The code of the receiver. -/
def receiver : LateCall → Emit Unit
  | .method receiver _ _ => emitValue env receiver
  | .invoke => loadThis env

/-- The code of the values behind the context, that of a computed name first. -/
def values : LateCall → List (Emit Unit)
  | .method _ (.direct _) args => args.map fun arg => emitValue env arg.value
  | .method _ (.computed name) args =>
    emitValue env name :: args.map fun arg => emitValue env arg.value
  | .invoke => [do emit (.loadArg (← argumentSlot 0))]

/-- The code in front of the call: the receiver, the context, and the values. -/
def operands (call : LateCall) : Emit Unit := do
  call.receiver env
  loadContext env
  oneByOne (call.values env)

/-- The code of the call. -/
def write (call : LateCall) : Emit Unit := do
  call.operands env
  writeSite call.selector call.shapes

theorem length_values (call : LateCall) : (call.values env).length = call.shapes.length := by
  cases call with
  | method receiver name args => cases name <;> simp [values, shapes]
  | invoke => rfl

end LateCall

variable {env : BodyEnv}

theorem pushAll_eq (args : List Lowered) : pushAll args = oneByOne (args.map (·.value)) := by
  induction args with
  | nil => rfl
  | cons arg rest ih => rw [pushAll, List.map_cons, oneByOne, ih]

theorem shape_lowerArgument (arg : Argument) : (lowerArgument env arg).shape = arg.shape := by
  cases arg <;> rw [lowerArgument] <;> rfl

theorem shapes_lowerArgument (args : List Argument) :
    (args.map (lowerArgument env)).map (·.shape) = args.map Argument.shape := by
  rw [List.map_map]
  exact List.map_congr_left fun arg _ => shape_lowerArgument arg

/-- **A method call through a call site.** -/
theorem lowerLateCall_eq (receiver : Expr) (name : MethodName) (args : List Argument) :
    lowerLateCall env (lower env receiver).value (lowerName env name)
      (args.map (lowerArgument env)) = (LateCall.method receiver name args).write env := by
  have codes : pushAll ((args.map (lowerArgument env)).map (·.code)) =
      oneByOne (args.map fun arg => emitValue env arg.value) := by
    simp only [pushAll_eq, List.map_map]
    refine congrArg oneByOne (List.map_congr_left fun arg _ => ?_)
    simp only [Function.comp_apply, code_lowerArgument, emitValue]
  cases name with
  | direct name =>
    rw [lowerName]
    simp only [lowerLateCall, codes, shapes_lowerArgument, LateCall.write, LateCall.operands,
      LateCall.receiver, LateCall.values, LateCall.selector, LateCall.shapes, writeSite, bind_assoc,
      emitValue]
  | computed value =>
    rw [lowerName]
    simp only [lowerLateCall, codes, shapes_lowerArgument, LateCall.write, LateCall.operands,
      LateCall.receiver, LateCall.values, LateCall.selector, LateCall.shapes, writeSite, oneByOne,
      bind_assoc, emitValue]

/-- **The code by which an object is called** like a function: the call, and its result. -/
theorem invokeCode_eq : invokeCode env = (do
    LateCall.invoke.write env
    emit .return) := by
  simp only [invokeCode, LateCall.write, LateCall.operands, LateCall.receiver, LateCall.values,
    LateCall.selector, LateCall.shapes, writeSite, oneByOne, bind_assoc, pure_bind]

end StackScript
