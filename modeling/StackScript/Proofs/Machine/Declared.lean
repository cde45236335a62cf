import StackScript.Machine.Run
import StackScript.Proofs.Memory.Mirrors

/-!
# Functions that are declared stay declared

Only the host declares functions in a context. Whatever a program does there, initializers of static
fields and routines of the host included, leaves the functions of all contexts as they are.

## Main definitions

* `Memory.SameFunctions`: memories whose contexts have the same functions
* `KeepsFunctions`: an action leaves the functions of all contexts alone

## Main results

* `Image.keepsFunctions_run`, `Image.keepsFunctions_answer`: runs and answers do so
-/

namespace StackScript

/-- The contexts have the same functions. -/
def Memory.SameFunctions (memory next : Memory) : Prop :=
  ∀ id, (next.context id).functions = (memory.context id).functions

/-- **From this memory on the action leaves the functions of all contexts alone.** -/
def KeepsFunctions {α : Type} (memory : Memory) (x : Run α) : Prop :=
  ∀ outcome after, x.run memory = some (outcome, after) → memory.SameFunctions after

namespace Memory

variable {memory : Memory}

theorem SameFunctions.refl (memory : Memory) : memory.SameFunctions memory := fun _ => rfl

theorem sameFunctions_setContext {id : ContextId} {state : Context}
    (same : state.functions = (memory.context id).functions) :
    memory.SameFunctions (memory.setContext id state) := by
  intro other
  simp only [Memory.context, setContext, Array.getElem?_setIfInBounds] at same ⊢
  split
  · subst_vars
    split
    · exact same
    · next outside => rw [Array.getElem?_eq_none (Nat.not_lt.mp outside)]
  · rfl

theorem sameFunctions_echo (id : ContextId) (text : String) :
    memory.SameFunctions (memory.echo id text) := by
  intro other
  simp only [Memory.context, echo, Array.getElem?_modify]
  split
  · cases memory.contexts[other]? <;> rfl
  · rfl

end Memory

/-! ## Actions -/

namespace KeepsFunctions

variable {α β : Type} {x : Run α} {f : α → Run β} {memory next : Memory}

theorem pure (a : α) : KeepsFunctions memory (Pure.pure a) := by
  rintro outcome after ⟨⟩
  exact .refl memory

theorem throw (e : DispatchError) : KeepsFunctions memory (MonadExcept.throw e : Run α) := by
  rintro outcome after ⟨⟩
  exact .refl memory

theorem ofExcept (r : Except DispatchError α) :
    KeepsFunctions memory (MonadExcept.ofExcept r : Run α) := by
  cases r with
  | error e => exact throw e
  | ok a => exact pure a

theorem bind (h : KeepsFunctions memory x) (h' : ∀ a next, KeepsFunctions next (f a)) :
    KeepsFunctions memory (x >>= f) := by
  intro outcome after ends
  obtain ⟨⟨first, next⟩, begins, ends⟩ := Option.bind_eq_some_iff.mp ends
  have same := h first next begins
  cases first with
  | error e =>
    cases ends
    exact same
  | ok a => exact fun id => (h' a next outcome after ends id).trans (same id)

theorem get {f : Memory → Run β} (h : KeepsFunctions memory (f memory)) :
    KeepsFunctions memory (getThe Memory >>= f) := h

theorem set {y : Run β} (same : memory.SameFunctions next) (h : KeepsFunctions next y) :
    KeepsFunctions memory (do MonadStateOf.set next; y) :=
  fun outcome after ends id => (h outcome after ends id).trans (same id)

theorem modify {f : Memory → Memory} (same : memory.SameFunctions (f memory)) :
    KeepsFunctions memory (modifyThe Memory f) := by
  rintro outcome after ⟨⟩
  exact same

theorem attempt (h : KeepsFunctions memory x) : KeepsFunctions memory (Run.attempt x) := by
  intro outcome after ends
  simp only [Run.attempt, ExceptT.run_mk] at ends
  split at ends
  · cases ends
  · next first =>
    cases ends
    exact h _ _ first

theorem ensureInitialized (typeName : String) {init : Run Unit}
    (h : ∀ memory, KeepsFunctions memory init) :
    KeepsFunctions memory (StackScript.ensureInitialized typeName init) := by
  refine get ?_
  rw [outcomeOf_eq_attempt]
  generalize memory.shared.enter typeName = entered
  obtain ⟨admission, shared⟩ := entered
  cases admission with
  | granted => exact pure ()
  | refused e => exact throw e
  | first =>
    have same : memory.SameFunctions { memory with shared } := fun _ => rfl
    refine set same ((h _).attempt.bind fun outcome _ => (modify fun _ => rfl).bind fun _ _ => ?_)
    cases outcome with
    | ok => exact pure ()
    | error e => exact throw e

theorem boundStatics (context : ContextId) (typeName : String) {init : HolderId → Run Unit}
    (h : ∀ id memory, KeepsFunctions memory (init id)) :
    KeepsFunctions memory (StackScript.boundStatics context typeName init) := by
  refine get ?_
  simp only [outcomeOf_eq_attempt]
  have same := (memory.context context).functions_enterStatics typeName
  generalize (memory.context context).enterStatics typeName = entered at same ⊢
  obtain ⟨admission, id, entered⟩ := entered
  cases admission with
  | granted => exact pure id
  | refused e => exact throw e
  | first =>
    refine set (Memory.sameFunctions_setContext same) ((h id _).attempt.bind fun outcome _ =>
      (modify (Memory.sameFunctions_setContext
        (Context.functions_leaveStatics _ id outcome))).bind fun _ _ => ?_)
    cases outcome with
    | ok => exact pure id
    | error e => exact throw e

end KeepsFunctions

/-! ## Runs -/

namespace Image

variable {image : Image} {run : Runner} {context : ContextId} {memory : Memory}

section Requests

variable (runs : ∀ memory activity, KeepsFunctions memory (run context activity))
    (type : QualifiedName)

include runs

theorem keepsFunctions_callRoutine (routine : RoutineRef) (receiver : Option Value)
    (args : List Value) :
    KeepsFunctions memory (image.callRoutine run context routine receiver args) := by
  cases routine with
  | compiled key formals => exact (KeepsFunctions.ofExcept _).bind fun _ _ => runs _ _
  | native index =>
    refine .get ?_
    cases memory.natives[index]? with
    | none => exact .throw _
    | some native => exact runs _ _

theorem keepsFunctions_callFunction (name : String) (args : List Value) :
    KeepsFunctions memory (image.callFunction run context name args) := by
  refine .get ?_
  cases (memory.context context).function? name with
  | none => exact .throw _
  | some routine => exact keepsFunctions_callRoutine runs _ _ _

theorem keepsFunctions_runInitializer (member : String) (args : List FrameArg) :
    KeepsFunctions memory (image.runInitializer run context type member args) := by
  unfold runInitializer
  cases image.body? (BodyName.method type member).key with
  | none => exact .pure ()
  | some body => exact (runs _ _).bind fun _ _ => .pure ()

theorem keepsFunctions_initializeShared :
    KeepsFunctions memory (image.initializeShared run context type) :=
  .ensureInitialized _ fun _ => keepsFunctions_runInitializer runs _ _ _

theorem keepsFunctions_initializeBound :
    KeepsFunctions memory (image.initializeBound run context type) :=
  .boundStatics _ _ fun _ _ => keepsFunctions_runInitializer runs _ _ _

theorem keepsFunctions_invokeSite (shape : SiteShape) (receiver : Value) (args : List Value) :
    KeepsFunctions memory (image.invokeSite run context shape receiver args) :=
  .get (.set (fun _ => rfl) ((KeepsFunctions.ofExcept _).bind fun _ _ =>
    keepsFunctions_callRoutine runs _ _ _))

theorem keepsFunctions_create (args : List FrameArg) :
    KeepsFunctions memory (image.create run context type args) := by
  have awaits : KeepsFunctions memory image.awaitTypes := by
    unfold awaitTypes
    split
    · exact .pure ()
    · rintro outcome after ⟨⟩
  refine awaits.bind fun _ _ => ?_
  cases image.type? type.text with
  | none => exact .throw _
  | some runtimeType =>
    exact .get (.set (fun _ => rfl) ((KeepsFunctions.ofExcept _).bind fun _ _ =>
      (runs _ _).bind fun _ _ => .pure _))

/-- **The answer to a request** leaves the functions alone, if runs do. -/
theorem keepsFunctions_answer (request : Request) :
    KeepsFunctions memory (image.answer run context request) := by
  cases request with
  | echo text => exact (KeepsFunctions.modify (memory.sameFunctions_echo _ _)).bind fun _ _ => .pure _
  | loadField object field => exact .get (.pure _)
  | storeField object field value => exact (KeepsFunctions.modify fun _ => rfl).bind fun _ _ => .pure _
  | loadShared type field =>
    exact (keepsFunctions_initializeShared runs type).bind fun _ _ => .get (.pure _)
  | storeShared type field value =>
    exact (keepsFunctions_initializeShared runs type).bind fun _ _ =>
      (KeepsFunctions.modify fun _ => rfl).bind fun _ _ => .pure _
  | loadBound type field =>
    exact (keepsFunctions_initializeBound runs type).bind fun _ _ => .get (.pure _)
  | storeBound type field value =>
    exact (keepsFunctions_initializeBound runs type).bind fun _ _ =>
      (KeepsFunctions.modify (Memory.sameFunctions_setContext
        (Context.functions_setStatic _ _ _ _))).bind fun _ _ => .pure _
  | call name receiver args => exact (KeepsFunctions.ofExcept _).bind fun _ _ => runs _ _
  | callGlobal name args => exact keepsFunctions_callFunction runs _ _
  | callSite shape receiver pushed =>
    exact KeepsFunctions.bind (.get (.set (fun _ => rfl) (.ofExcept _))) fun _ _ =>
      keepsFunctions_invokeSite runs _ _ _
  | create type args => exact keepsFunctions_create runs _ _

end Requests

section Native

variable {call : String → List Value → Run Value} {echo : String → Run Unit}

mutual

/-- A routine of the host, if the calls and the output do. -/
theorem keepsFunctions_native (calls : ∀ memory name args, KeepsFunctions memory (call name args))
    (echoes : ∀ memory text, KeepsFunctions memory (echo text)) (receiver : Value)
    (args : List Value) (memory : Memory) :
    ∀ routine : Native, KeepsFunctions memory (routine.run call echo receiver args)
  | .result _ => .pure _
  | .arguments => .pure _
  | .firstArgument => .pure _
  | .argumentCount => .pure _
  | .receiver => .pure _
  | .throwing _ => .throw _
  | .failing _ => .throw _
  | .echo text => (echoes memory text).bind fun _ _ => .pure _
  | .call name => calls memory name args
  | .sequence steps => keepsFunctions_natives calls echoes receiver args memory .null steps

/-- Several routines of the host, one after the other. -/
theorem keepsFunctions_natives (calls : ∀ memory name args, KeepsFunctions memory (call name args))
    (echoes : ∀ memory text, KeepsFunctions memory (echo text)) (receiver : Value)
    (args : List Value) (memory : Memory) (last : Value) :
    ∀ steps : List Native,
      KeepsFunctions memory (Native.runAll call echo receiver args last steps)
  | [] => .pure last
  | step :: rest =>
    (keepsFunctions_native calls echoes receiver args memory step).bind fun value next =>
      keepsFunctions_natives calls echoes receiver args next value rest

end

end Native

/-- **Functions that are declared stay declared**: no run touches the functions of a context. -/
theorem keepsFunctions_run (fuel : Nat) (memory : Memory) (activity : Activity) :
    KeepsFunctions memory (image.run fuel context activity) := by
  induction fuel generalizing memory activity with
  | zero => rintro outcome after ⟨⟩
  | succ fuel ih =>
    cases activity with
    | native routine receiver args =>
      exact keepsFunctions_native (fun _ _ _ => keepsFunctions_callFunction ih _ _)
        (fun memory text => .modify (memory.sameFunctions_echo context text)) receiver args memory
        routine
    | frame body step =>
      cases step with
      | returned value => exact .pure value
      | failed error => exact .throw error
      | running frame => exact ih memory _
      | asking request frame => exact (keepsFunctions_answer ih request).attempt.bind fun _ _ => ih _ _

end Image

end StackScript
