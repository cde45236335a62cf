import Mathlib.Tactic.Common
import StackScript.Machine.Run

/-!
# The context as a value

Where a context is stored in an array or an object it becomes a string, and a frame that has the
string in place of the context goes on in the same way: nothing that a body does tells the one from
the other. So a routine runs alike whether an argument is the context or its string.

## Main definitions

* `Slot.plain`, `Frame.plain`, `Step.plain`: the context replaced by its string

## Main results

* `Image.run_plain`: a frame runs like the frame without contexts
* `Image.run_ofBody_plain`: a body runs alike on arguments without contexts
-/

namespace StackScript

variable (frame : Frame)

/-- The place, the context replaced by its string. -/
def Slot.plain : Slot → Slot
  | .context => .value (.string Slot.contextMark)
  | slot => slot

/-- The argument, the context replaced by its string. -/
def FrameArg.plain : FrameArg → FrameArg
  | .context => .value (.string Slot.contextMark)
  | arg => arg

namespace Slot

variable (slot : Slot)

@[simp] theorem toValue_plain : slot.plain.toValue = slot.toValue := by
  cases slot <;> rfl

@[simp] theorem toArg_plain : slot.plain.toArg = slot.toArg.plain := by
  cases slot <;> rfl

@[simp] theorem ofArg_plain (arg : FrameArg) : ofArg arg.plain = (ofArg arg).plain := by
  cases arg <;> rfl

@[simp] theorem plain_unset : unset.plain = unset := rfl

@[simp] theorem plain_value (v : Value) : (value v).plain = value v := rfl

@[simp] theorem plain_enumerator (id : Nat) : (enumerator id).plain = enumerator id := rfl

/-- An argument for a value is what is left of the place without the context. -/
theorem plain_toArg : slot.toArg.plain = .value slot.toValue := by
  cases slot <;> rfl

end Slot

/-- What a request asks for does not depend on contexts among its arguments. -/
def Request.plain : Request → Request
  | .call body receiver args => .call body receiver (args.map FrameArg.plain)
  | .create type args => .create type (args.map FrameArg.plain)
  | request => request

namespace Frame

/-- The frame, its contexts replaced by their string. -/
def plain (frame : Frame) : Frame :=
  { frame with
    args := frame.args.map Slot.plain
    locals := frame.locals.map Slot.plain
    stack := frame.stack.map Slot.plain }

variable (frame : Frame) (count : Nat)

@[simp] theorem plain_pc : frame.plain.pc = frame.pc := rfl

@[simp] theorem plain_receiver : frame.plain.receiver = frame.receiver := rfl

@[simp] theorem plain_cursors : frame.plain.cursors = frame.cursors := rfl

@[simp] theorem plain_pending : frame.plain.pending = frame.pending := rfl

@[simp] theorem plain_stack : frame.plain.stack = frame.stack.map Slot.plain := rfl

@[simp] theorem push_plain (slot : Slot) : frame.plain.push slot.plain = (frame.push slot).plain :=
  rfl

@[simp] theorem push_context_plain :
    frame.plain.push (.value (.string Slot.contextMark)) = (frame.push .context).plain := rfl

@[simp] theorem pushValue_plain (v : Value) :
    frame.plain.pushValue v = (frame.pushValue v).plain := rfl

@[simp] theorem pop_plain :
    frame.plain.pop = frame.pop.map fun (slot, rest) => (slot.plain, rest.plain) := by
  unfold pop
  rw [plain_stack]
  cases frame.stack <;> rfl

@[simp] theorem popValue_plain :
    frame.plain.popValue = frame.popValue.map fun (v, rest) => (v, rest.plain) := by
  unfold popValue
  rw [pop_plain]
  cases frame.pop with
  | error => rfl
  | ok popped => exact congrArg (fun v => Except.ok (v, _)) (Slot.toValue_plain _)

@[simp] theorem popMany_plain :
    frame.plain.popMany count =
      (frame.popMany count).map fun (slots, rest) => (slots.map Slot.plain, rest.plain) := by
  unfold popMany
  simp only [plain_stack, List.length_map]
  split
  · rfl
  · simp [Except.map, plain, List.map_take, List.map_drop]

@[simp] theorem popValues_plain :
    frame.plain.popValues count =
      (frame.popValues count).map fun (values, rest) => (values, rest.plain) := by
  unfold popValues
  rw [popMany_plain]
  cases frame.popMany count with
  | error => rfl
  | ok popped =>
    refine congrArg (fun values => Except.ok (values, _)) ?_
    simp [Function.comp_def]

@[simp] theorem popCursor_plain :
    frame.plain.popCursor =
      frame.popCursor.map fun (id, cursor, rest) => (id, cursor, rest.plain) := by
  unfold popCursor
  rw [pop_plain]
  cases frame.pop with
  | error => rfl
  | ok popped =>
    obtain ⟨slot, rest⟩ := popped
    cases slot with
    | value => rfl
    | context => rfl
    | enumerator id =>
      simp only [Except.map, bind, Except.bind, Slot.plain_enumerator, plain_cursors]
      cases rest.cursors[id]? <;> rfl

@[simp] theorem arg_plain (n : Nat) : frame.plain.arg n = (frame.arg n).plain := by
  simp only [arg, plain, Array.getElem?_map]
  cases frame.args[n]? <;> rfl

@[simp] theorem setArg_plain (n : Nat) (slot : Slot) :
    frame.plain.setArg n slot.plain = (frame.setArg n slot).plain := by
  simp [setArg, plain, Array.map_setIfInBounds]

@[simp] theorem getLocal_plain (id : LocalId) :
    frame.plain.getLocal id = (frame.getLocal id).map Slot.plain := by
  simp only [getLocal, plain, Array.getElem?_map]
  cases frame.locals[id]? <;> rfl

@[simp] theorem setLocal_plain (id : LocalId) (slot : Slot) :
    frame.plain.setLocal id slot.plain = (frame.setLocal id slot).map plain := by
  simp only [setLocal, plain, Array.size_map]
  split
  · simp [Except.map, plain, Array.map_setIfInBounds]
  · rfl

end Frame

/-- The effect on a frame without contexts. -/
def Effect.plain : Effect → Effect
  | .next frame => .next frame.plain
  | .jump target frame => .jump target frame.plain
  | .ask request frame => .ask request.plain frame.plain
  | .leave target => .leave target
  | .endFinally => .endFinally
  | .return value => .return value

/-- What goes on alike behind each result goes on alike behind an action. -/
theorem Except.bind_map_eq {ε α β γ δ : Type} {x : Except ε α} {g : α → β} {f : γ → δ}
    {next : α → Except ε γ} {next' : β → Except ε δ} (h : ∀ a, next' (g a) = (next a).map f) :
    (x.map g >>= next') = (x >>= next).map f := by
  cases x with
  | error => rfl
  | ok a => exact h a

/-- No instruction tells the context from its string, and no other than the one for it makes a
context. -/
theorem Frame.execute_plain {i : Instruction} (h : i ≠ .loadContext) :
    frame.plain.execute i = (frame.execute i).map Effect.plain := by
  -- Every access to the frame commutes with `plain`. So the proof takes them in the order of the
  -- instruction, each behind the one before by `Except.bind_map_eq`.
  unfold Frame.execute
  cases i with
  | loadContext => exact absurd rfl h
  | nop | loadNull | loadBool | loadLong | loadDouble | loadString | loadShared | jump | leave
    | endFinally => rfl
  | loadThis =>
    dsimp only
    rw [plain_receiver]
    cases frame.receiver <;> rfl
  | loadArg slot => exact congrArg (fun f => Except.ok (Effect.next f)) (by simp)
  | storeArg slot =>
    simp only [pop_plain]
    exact Except.bind_map_eq fun (_, _) => congrArg (fun f => Except.ok (Effect.next f)) (by simp)
  | loadLocal slot =>
    simp only [getLocal_plain]
    exact Except.bind_map_eq fun _ => rfl
  | storeLocal slot =>
    simp only [pop_plain]
    refine Except.bind_map_eq fun (_, _) => ?_
    simp only [setLocal_plain]
    exact Except.bind_map_eq fun _ => rfl
  | dup =>
    dsimp only
    rw [plain_stack]
    cases frame.stack <;> rfl
  | pop | loadBound type field =>
    simp only [pop_plain]
    exact Except.bind_map_eq fun (_, _) => rfl
  | unary | isInstance | isExactType | storeShared =>
    simp only [popValue_plain]
    exact Except.bind_map_eq fun (_, _) => rfl
  | throw | «return» =>
    simp only [popValue_plain]
    exact Except.bind_map_eq fun (_, _) => rfl
  | binary op =>
    simp only [popValue_plain]
    refine Except.bind_map_eq fun (_, _) => ?_
    simp only [popValue_plain]
    exact Except.bind_map_eq fun (_, _) => rfl
  | newArray size keyed =>
    cases keyed <;>
    · simp only [popValues_plain]
      exact Except.bind_map_eq fun (_, _) => rfl
  | loadField field =>
    simp only [popValue_plain]
    refine Except.bind_map_eq fun (receiver, _) => ?_
    dsimp only
    cases receiver.object? <;> rfl
  | storeField field =>
    simp only [popValue_plain]
    refine Except.bind_map_eq fun (_, _) => ?_
    simp only [popValue_plain]
    refine Except.bind_map_eq fun (receiver, _) => ?_
    dsimp only
    cases receiver.object? <;> rfl
  | storeBound type field =>
    simp only [popValue_plain]
    refine Except.bind_map_eq fun (_, _) => ?_
    simp only [pop_plain]
    exact Except.bind_map_eq fun (_, _) => rfl
  | call body argc onObject =>
    cases onObject with
    | false =>
      simp only [popMany_plain]
      refine Except.bind_map_eq fun (_, _) => ?_
      simp [Except.map, Effect.plain, Request.plain, pure, Except.pure]
    | true =>
      simp only [popMany_plain]
      refine Except.bind_map_eq fun (_, _) => ?_
      simp only [popValue_plain]
      refine Except.bind_map_eq fun (_, _) => ?_
      simp [Except.map, Effect.plain, Request.plain, pure, Except.pure]
  | newObject type argc =>
    simp only [popMany_plain]
    refine Except.bind_map_eq fun (_, _) => ?_
    simp [Except.map, Effect.plain, Request.plain, pure, Except.pure]
  | callGlobal name argc =>
    simp only [popValues_plain]
    refine Except.bind_map_eq fun (_, _) => ?_
    simp only [pop_plain]
    exact Except.bind_map_eq fun (_, _) => rfl
  | callSite shape =>
    simp only [popValues_plain]
    refine Except.bind_map_eq fun (_, _) => ?_
    simp only [pop_plain]
    refine Except.bind_map_eq fun (_, _) => ?_
    simp only [popValue_plain]
    exact Except.bind_map_eq fun (_, _) => rfl
  | echo =>
    simp only [popValue_plain]
    refine Except.bind_map_eq fun (_, _) => ?_
    simp only [pop_plain]
    exact Except.bind_map_eq fun (_, _) => rfl
  | getEnumerator =>
    simp only [popValue_plain]
    refine Except.bind_map_eq fun (value, _) => ?_
    dsimp only
    cases value.entries? <;> rfl
  | advance =>
    simp only [popCursor_plain]
    exact Except.bind_map_eq fun (_, _, _) => rfl
  | enumeratorKey | enumeratorValue =>
    simp only [popCursor_plain]
    refine Except.bind_map_eq fun (_, cursor, _) => ?_
    dsimp only
    cases cursor.current <;> rfl
  | jumpIfTrue target | jumpIfFalse target =>
    simp only [popValue_plain]
    refine Except.bind_map_eq fun (condition, _) => ?_
    dsimp only
    cases condition.truthy <;> rfl
  | assertNotNull =>
    dsimp only
    rw [plain_stack]
    rcases frame.stack with _ | ⟨top, rest⟩
    · rfl
    · cases top with
      | value v => cases v <;> rfl
      | context => rfl
      | enumerator => rfl

/-! ## Steps -/

theorem Slot.plain_plain (slot : Slot) : slot.plain.plain = slot.plain := by
  cases slot <;> rfl

theorem FrameArg.plain_plain (arg : FrameArg) : arg.plain.plain = arg.plain := by
  cases arg <;> rfl

theorem Frame.plain_plain : frame.plain.plain = frame.plain := by
  simp [plain, Function.comp_def, Slot.plain_plain]

theorem Request.plain_plain (request : Request) : request.plain.plain = request.plain := by
  cases request <;> simp [plain, Function.comp_def, FrameArg.plain_plain]

/-- The step of a frame without contexts. -/
def Step.plain : Step → Step
  | .running frame => .running frame.plain
  | .asking request frame => .asking request.plain frame.plain
  | .returned value => .returned value
  | .failed error => .failed error

theorem Step.plain_plain (step : Step) : step.plain.plain = step.plain := by
  cases step with
  | running frame => exact congrArg running frame.plain_plain
  | asking request frame => exact congrArg₂ asking request.plain_plain frame.plain_plain
  | returned => rfl
  | failed => rfl

namespace Body

variable (body : Body) (frame : Frame)

theorem raise_plain (error : DispatchError) :
    body.raise frame.plain error = (body.raise frame error).plain := by
  unfold raise
  cases error with
  | thrown value =>
    dsimp only [Frame.plain_pc]
    cases body.regions.find? fun region => region.protects frame.pc && region.takes value with
    | none => rfl
    | some region =>
      simp only [enterHandler, Step.plain]
      split <;> rfl
  | _ => rfl

theorem complete_plain (target : Nat) (remaining : List Nat) :
    complete frame.plain target remaining = (complete frame target remaining).plain := by
  cases remaining <;> rfl

theorem step_plain : (body.step frame.plain).plain = (body.step frame).plain := by
  unfold step
  rw [Frame.plain_pc]
  cases body.code[frame.pc]? with
  | none =>
    dsimp only
    rw [raise_plain, Step.plain_plain]
  | some i =>
    dsimp only
    -- The one instruction that makes a context. Behind it the frames differ, but not once they are
    -- plain.
    by_cases h : i = .loadContext
    · subst h
      exact congrArg Step.running
        (Frame.plain_plain { frame.push .context with pc := frame.pc + 1 })
    rw [Frame.execute_plain frame h]
    cases frame.execute i with
    | error error =>
      dsimp only [Except.map]
      rw [raise_plain, Step.plain_plain]
    | ok effect =>
      cases effect with
      | next frame =>
        exact congrArg Step.running (Frame.plain_plain { frame with pc := frame.pc + 1 })
      | jump target frame =>
        exact congrArg Step.running (Frame.plain_plain { frame with pc := target })
      | ask request frame =>
        exact congrArg₂ Step.asking (Request.plain_plain _) (Frame.plain_plain _)
      | leave target =>
        dsimp only [Except.map, Effect.plain]
        rw [Step.plain, Step.plain, ← complete_plain, ← complete_plain]
        exact congrArg (fun f => Step.running (complete f target _))
          (Frame.plain_plain { frame with stack := [] })
      | endFinally =>
        dsimp only [Except.map, Effect.plain, Frame.plain_pending]
        rcases frame.pending with _ | ⟨first, rest⟩
        · rfl
        · cases first with
          | leave target remaining =>
            dsimp only
            rw [Step.plain, Step.plain, ← complete_plain, ← complete_plain]
            exact congrArg (fun f => Step.running (complete f target remaining))
              (Frame.plain_plain { frame with pending := rest })
          | rethrow value =>
            exact (congrArg Step.plain (raise_plain body { frame with pending := rest } _)).trans
              (Step.plain_plain _)
      | «return» => rfl

theorem resume_plain (request : Request) (frame : Frame) (answer : Except DispatchError Value) :
    body.resume request.plain frame.plain answer = (body.resume request frame answer).plain := by
  have yields : request.plain.yields = request.yields := by cases request <;> rfl
  unfold resume
  cases answer with
  | error error => exact raise_plain body frame error
  | ok value =>
    dsimp only
    rw [yields]
    cases request.yields <;> rfl

end Body

/-! ## Runs -/

theorem Frame.enter_plain (body : Body) (receiver : Option Value) (args : List FrameArg) :
    Frame.enter body receiver (args.map FrameArg.plain) = (Frame.enter body receiver args).plain := by
  simp [Frame.enter, Frame.plain, Function.comp_def]

namespace Image

variable (image : Image) (fuel : Nat)

/-- **A frame runs like the frame without contexts.** -/
theorem run_plain (context : ContextId) (body : Body) (step : Step) :
    image.run fuel context (.frame body step.plain) = image.run fuel context (.frame body step) := by
  induction fuel generalizing body step context with
  | zero => rfl
  | succ fuel ih =>
    -- What a request starts runs with less fuel.
    have ofBody (context : ContextId) (body : Body) (receiver : Option Value)
        (args : List FrameArg) :
        image.run fuel context (.ofBody body receiver (args.map FrameArg.plain)) =
          image.run fuel context (.ofBody body receiver args) := by
      unfold Activity.ofBody
      rw [Frame.enter_plain]
      exact ih context body (.running _)
    have answer (request : Request) :
        image.answer (image.run fuel) context request.plain =
          image.answer (image.run fuel) context request := by
      cases request with
      | call name receiver args =>
        simp only [Request.plain, Image.answer, ofBody]
      | create type args =>
        simp only [Request.plain, Image.answer, Image.create, ofBody]
      | _ => rfl
    cases step with
    | returned => rfl
    | failed => rfl
    | running frame =>
      rw [Step.plain, run, run, ← ih context body (body.step frame.plain), Body.step_plain, ih]
    | asking request frame =>
      rw [Step.plain, run, run, answer]
      refine congrArg _ (funext fun answer => ?_)
      rw [Body.resume_plain, ih]

/-- **A body runs alike on arguments without contexts.** -/
theorem run_ofBody_plain (context : ContextId) (body : Body) (receiver : Option Value)
    (args : List FrameArg) :
    image.run fuel context (.ofBody body receiver (args.map FrameArg.plain)) =
      image.run fuel context (.ofBody body receiver args) := by
  unfold Activity.ofBody
  rw [Frame.enter_plain]
  exact run_plain image fuel context body (.running _)

end Image

end StackScript
