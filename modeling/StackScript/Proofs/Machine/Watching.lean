import StackScript.Machine.Run
import StackScript.Proofs.Memory.Values

/-!
# Runs with a record of their static fields

A request is answered from the memory, by an access to static fields, or by the run of one routine.
Which of these it is, and which routine runs, is settled before anything runs.

A run can be watched: it is written down which values it stores to static fields and which it loads
from them, and when their initializers begin and end. Watching changes nothing, and what is written
down stays even if the run goes on forever.

## Main definitions

* `Errand`: what is left to do for an answer
* `Image.errand`, `Image.perform`: what a request leaves to do, and what is done about it
* `FieldEvent`: what happens to a static field
* `Watch`, `Watched`: a memory with a record, and the actions on it
* `Image.watch`: the run of a routine, watched
* `Watched.Erases`: an action is another one, watched

## Main results

* `Image.answer_eq`: a request is answered by its errand
* `Image.erases_watch`: a run that is watched is the run
-/

namespace StackScript

/-! ## Errands -/

/-- What is left to do for the answer to a request. -/
inductive Errand where
  | answered (value : Value)
  /-- The result of a routine is the answer. -/
  | routine (activity : Activity)
  /-- A constructor runs, and the object is the answer. -/
  | construction (object : Value) (activity : Activity)
  | loadShared (type : QualifiedName) (field : String)
  | storeShared (type : QualifiedName) (field : String) (value : Value)
  | loadBound (type : QualifiedName) (field : String)
  | storeBound (type : QualifiedName) (field : String) (value : Value)

namespace Image

variable (image : Image) (context : ContextId)

/-- The routine that runs in a call with supplied values. -/
def activityOf (routine : RoutineRef) (receiver : Option Value) (args : List Value) :
    Run Activity := do
  match routine with
  | .compiled key formals =>
    let body ← MonadExcept.ofExcept (image.bodyOf key)
    return .ofBody body receiver (.context :: layArgs formals args)
  | .native index =>
    let memory ← getThe Memory
    match memory.natives[index]? with
    | some native => return .native native (receiver.getD .null) args
    | none => throw (.failed (.noBody (toString index)))

/-- The routine that runs in a call of a function that was declared in the context. -/
def functionActivity (name : String) (args : List Value) : Run Activity := do
  let memory ← getThe Memory
  match (memory.context context).function? name with
  | some routine => image.activityOf routine none args
  | none => throw (.undefinedFunction name)

/-- The routine that runs in a late-bound call. -/
def siteActivity (shape : SiteShape) (receiver : Value) (args : List Value) : Run Activity := do
  let memory ← getThe Memory
  let (site, sites) := memory.sites.site shape
  let (prepared, site) := site.prepare receiver args
  set { memory with sites := sites.update site }
  let invocation ← MonadExcept.ofExcept prepared
  image.activityOf invocation.method.routine (some (.object invocation.receiver)) invocation.args

/-- A new object of a type, and the constructor that runs on it. -/
def construction (type : QualifiedName) (args : List FrameArg) : Run Errand := do
  image.awaitTypes
  match image.type? type.text with
  | none => throw (.failed (.typeNotLoaded type.text))
  | some runtimeType =>
    let memory ← getThe Memory
    let (object, memory) := memory.create runtimeType
    set memory
    let body ← MonadExcept.ofExcept (image.bodyOf (BodyName.constructor type).key)
    return .construction (.object object) (.ofBody body (some (.object object)) args)

/-- **What a request leaves to do.** -/
def errand : Request → Run Errand
  | .echo text => do
    modifyThe Memory (·.echo context text)
    return .answered .null
  | .loadField object field => do
    return .answered (((← getThe Memory).fieldsOf object).get field)
  | .storeField object field value => do
    modifyThe Memory (·.setField object field value)
    return .answered .null
  | .loadShared type field => return .loadShared type field
  | .storeShared type field value => return .storeShared type field value
  | .loadBound type field => return .loadBound type field
  | .storeBound type field value => return .storeBound type field value
  | .call name receiver args => do
    let body ← MonadExcept.ofExcept (image.bodyOf name.key)
    return .routine (.ofBody body receiver args)
  | .callGlobal name args => .routine <$> image.functionActivity context name.text args
  | .callSite shape receiver pushed => do
    let args ← flattenArgs shape pushed
    .routine <$> image.siteActivity shape receiver args
  | .create type args => image.construction type args

/-- What is done about an errand. -/
def perform (run : Runner) : Errand → Run Value
  | .answered value => return value
  | .routine activity => run context activity
  | .construction object activity => do
    let _ ← run context activity
    return object
  | .loadShared type field => do
    image.initializeShared run context type
    return (← getThe Memory).shared.get type.text field
  | .storeShared type field value => do
    image.initializeShared run context type
    modifyThe Memory fun memory =>
      { memory with shared := memory.shared.set type.text field value }
    return .null
  | .loadBound type field => do
    let id ← image.initializeBound run context type
    return ((← getThe Memory).context context).getStatic id field
  | .storeBound type field value => do
    let id ← image.initializeBound run context type
    modifyThe Memory fun memory =>
      memory.setContext context ((memory.context context).setStatic id field value)
    return .null

variable (run : Runner)

theorem callRoutine_eq (routine : RoutineRef) (receiver : Option Value) (args : List Value) :
    image.callRoutine run context routine receiver args =
      image.activityOf routine receiver args >>= run context := by
  unfold callRoutine activityOf
  cases routine with
  | compiled key formals => simp only [bind_assoc, pure_bind]
  | native index =>
    simp only [bind_assoc]
    congr 1
    funext memory
    cases memory.natives[index]? <;> rfl

theorem callFunction_eq (name : String) (args : List Value) :
    image.callFunction run context name args =
      image.functionActivity context name args >>= run context := by
  unfold callFunction functionActivity
  simp only [bind_assoc]
  congr 1
  funext memory
  cases (memory.context context).function? name with
  | none => rfl
  | some routine => exact image.callRoutine_eq context run routine none args

theorem invokeSite_eq (shape : SiteShape) (receiver : Value) (args : List Value) :
    image.invokeSite run context shape receiver args =
      image.siteActivity shape receiver args >>= run context := by
  unfold invokeSite siteActivity
  simp only [bind_assoc, callRoutine_eq]

theorem create_eq (type : QualifiedName) (args : List FrameArg) :
    image.create run context type args =
      image.construction type args >>= image.perform context run := by
  unfold create construction
  rw [bind_assoc]
  congr 1
  funext _
  cases image.type? type.text with
  | none => rfl
  | some runtimeType => simp only [bind_assoc, pure_bind, perform]

/-- **A request is answered by its errand.** -/
theorem answer_eq (request : Request) :
    image.answer run context request = image.errand context request >>= image.perform context run := by
  cases request with
  | loadShared | storeShared | loadBound | storeBound => rfl
  | echo | loadField | storeField | call => simp only [answer, errand, bind_assoc, pure_bind, perform]
  | callGlobal name args =>
    simp only [answer, errand, callFunction_eq, map_eq_pure_bind, bind_assoc, pure_bind, perform]
  | callSite shape receiver pushed =>
    simp only [answer, errand, invokeSite_eq, map_eq_pure_bind, bind_assoc, pure_bind, perform]
  | create type args => exact image.create_eq context run type args

end Image

/-! ## Watching -/

/-- What happens to static fields. -/
inductive FieldEvent where
  | began (statics : Statics)
  | ended (statics : Statics)
  | loaded (field : StaticField) (value : Value)
  /-- A value is stored by the body of a key. -/
  | stored (field : StaticField) (value : Value) (body : String)

/-- A memory, and what has happened to static fields so far, the last first. -/
structure Watch where
  memory : Memory
  record : List FieldEvent

/-- An action on the memory that is watched. The record outlives errors, and runs that need more
fuel. -/
abbrev Watched := ExceptT DispatchError (OptionT (StateM Watch))

namespace Watched

instance : MonadStateOf Memory Watched where
  get := Watch.memory <$> getThe Watch
  set memory := modifyThe Watch fun watch => { watch with memory }
  modifyGet f := modifyGetThe Watch fun watch =>
    let (a, memory) := f watch.memory
    (a, { watch with memory })

variable {α β : Type}

/-- The action needs more fuel than it was given. -/
def exhausted : Watched α := ExceptT.mk (OptionT.mk (pure none))

/-- Something happens. -/
def note (event : FieldEvent) : Watched Unit :=
  modifyThe Watch fun watch => { watch with record := event :: watch.record }

/-- An action in which nothing happens to static fields. -/
def ofRun (action : Run α) : Watched α :=
  ExceptT.mk (OptionT.mk fun watch =>
    match action.run watch.memory with
    | none => (none, watch)
    | some (outcome, memory) => (some outcome, { watch with memory }))

/-- The action with its error as a result. -/
def attempt (action : Watched α) : Watched (Except DispatchError α) :=
  tryCatch (Except.ok <$> action) fun error => return .error error

/-- The run of an initializer. -/
def initializer (statics : Statics) (init : Watched Unit) : Watched Unit := do
  note (.began statics)
  let outcome ← outcomeOf init
  note (.ended statics)
  MonadExcept.ofExcept outcome

/-- What an action comes to: its outcome, if it has enough fuel, and what is there then. -/
def leads (action : Watched α) (watch : Watch) : Option (Except DispatchError α) × Watch :=
  (action.run.run).run watch

end Watched

open Watched

/-- How routines are run in a context and watched. -/
abbrev Watcher := ContextId → Activity → Watched Value

mutual

/-- What a routine of the host does. -/
def Native.watch (call : String → List Value → Watched Value) (echo : String → Watched Unit)
    (receiver : Value) (args : List Value) : Native → Watched Value
  | .result value => return value
  | .arguments => return .ofList args
  | .firstArgument => return args.headD .null
  | .argumentCount => return .long (Int64.ofNat args.length)
  | .receiver => return receiver
  | .throwing value => throw (.thrown value)
  | .failing text => throw (.failed (.native text))
  | .echo text => do
    echo text
    return .null
  | .call name => call name args
  | .sequence steps => Native.watchAll call echo receiver args .null steps

/-- What several routines do one after the other. -/
def Native.watchAll (call : String → List Value → Watched Value) (echo : String → Watched Unit)
    (receiver : Value) (args : List Value) (last : Value) : List Native → Watched Value
  | [] => return last
  | step :: rest => do
    let value ← Native.watch call echo receiver args step
    Native.watchAll call echo receiver args value rest

end

namespace Image

section

variable (image : Image) (run : Watcher) (context : ContextId)

/-- The run of a member of a type, if there is one. -/
def watchMember (type : QualifiedName) (member : String) (args : List FrameArg) : Watched Unit :=
  match image.body? (BodyName.method type member).key with
  | some body => discard (run context (.ofBody body none args))
  | none => return ()

/-- An access to shared static fields. -/
def watchShared (type : QualifiedName) : Watched Unit :=
  ensureInitialized type.text <| initializer (.shared (nameKey type.text)) <|
    image.watchMember run context type BodyName.typeInitializerName []

/-- An access to the static fields of a type in the context. -/
def watchBound (type : QualifiedName) : Watched HolderId :=
  boundStatics context type.text fun _ => initializer (.bound context (nameKey type.text)) <|
    image.watchMember run context type BodyName.staticsInitializerName [.context]

/-- What is done about an errand of a frame, by the key of its body. -/
def watchErrand (body : String) : Errand → Watched Value
  | .answered value => return value
  | .routine activity => run context activity
  | .construction object activity => do
    let _ ← run context activity
    return object
  | .loadShared type field => do
    image.watchShared run context type
    let value := (← getThe Memory).shared.get type.text field
    note (.loaded ⟨.shared (nameKey type.text), field⟩ value)
    return value
  | .storeShared type field value => do
    image.watchShared run context type
    modifyThe Memory fun memory =>
      { memory with shared := memory.shared.set type.text field value }
    note (.stored ⟨.shared (nameKey type.text), field⟩ value body)
    return .null
  | .loadBound type field => do
    let id ← image.watchBound run context type
    let value := ((← getThe Memory).context context).getStatic id field
    note (.loaded ⟨.bound context (nameKey type.text), field⟩ value)
    return value
  | .storeBound type field value => do
    let id ← image.watchBound run context type
    modifyThe Memory fun memory =>
      memory.setContext context ((memory.context context).setStatic id field value)
    note (.stored ⟨.bound context (nameKey type.text), field⟩ value body)
    return .null

end

/-- **The run of a routine, watched.** -/
def watch (image : Image) : Nat → Watcher
  | 0, _, _ => exhausted
  | fuel + 1, context, .frame body step =>
    match step with
    | .returned value => return value
    | .failed error => throw error
    | .running frame => image.watch fuel context (.frame body (body.step frame))
    | .asking request frame => do
      let answer ← attempt do
        let errand ← ofRun (image.errand context request)
        image.watchErrand (image.watch fuel) context body.name.key errand
      image.watch fuel context (.frame body (body.resume request frame answer))
  | fuel + 1, context, .native routine receiver args =>
    routine.watch
      (fun name args => do
        let activity ← ofRun (image.functionActivity context name args)
        image.watch fuel context activity)
      (fun text => modifyThe Memory (·.echo context text)) receiver args

end Image

/-! ## Watching changes nothing -/

namespace Watched

variable {α β : Type} {watch : Watch}

/-- What an action comes to behind another one. -/
def onward (f : α → Watched β) :
    Option (Except DispatchError α) × Watch → Option (Except DispatchError β) × Watch
  | (some (.ok a), after) => (f a).leads after
  | (some (.error e), after) => (some (.error e), after)
  | (none, after) => (none, after)

theorem leads_bind (x : Watched α) (f : α → Watched β) :
    (x >>= f).leads watch = onward f (x.leads watch) := by
  unfold leads
  simp only [ExceptT.run_bind, OptionT.run_bind, Option.elimM, StateT.run_bind]
  rcases (x.run.run).run watch with ⟨_ | _ | a, after⟩ <;> rfl

theorem leads_attempt (x : Watched α) :
    (attempt x).leads watch = ((x.leads watch).1.map .ok, (x.leads watch).2) := by
  change (tryCatch (Except.ok <$> x) _ : Watched _).leads watch = _
  unfold leads
  simp only [ExceptT.run_tryCatch, ExceptT.run_map, OptionT.run_bind, OptionT.run_map,
    Option.elimM, StateT.run_bind, StateT.run_map]
  rcases (x.run.run).run watch with ⟨_ | _ | a, after⟩ <;> rfl

theorem leads_get {f : Memory → Watched α} :
    (getThe Memory >>= f).leads watch = (f watch.memory).leads watch := rfl

theorem leads_note (event : FieldEvent) :
    (note event).leads watch = (some (.ok ()), { watch with record := event :: watch.record }) := rfl

theorem leads_ofRun (y : Run α) :
    (ofRun y).leads watch =
      match y.run watch.memory with
      | none => (none, watch)
      | some (outcome, memory) => (some outcome, { watch with memory }) := rfl

/-- What an action comes to that is followed by a change by its outcome. -/
def closing (close : Except DispatchError Unit → Watch → Watch)
    (led : Option (Except DispatchError Unit) × Watch) : Option (Except DispatchError Unit) × Watch :=
  (led.1, led.1.elim led.2 fun outcome => close outcome led.2)

theorem closing_closing (f g : Except DispatchError Unit → Watch → Watch)
    (led : Option (Except DispatchError Unit) × Watch) :
    closing f (closing g led) = closing (fun outcome after => f outcome (g outcome after)) led := by
  rcases led with ⟨_ | _, _⟩ <;> rfl

theorem leads_initializer (statics : Statics) (init : Watched Unit) :
    (initializer statics init).leads watch =
      closing (fun _ after => { after with record := .ended statics :: after.record })
        (init.leads { watch with record := .began statics :: watch.record }) := by
  rw [initializer, leads_bind, leads_note, onward, leads_bind,
    show outcomeOf init = attempt init from rfl, leads_attempt]
  rcases init.leads { watch with record := .began statics :: watch.record } with
    ⟨_ | _ | a, after⟩ <;> rfl

section Accesses

variable {typeName : String} {context : ContextId} {outcome : Except DispatchError Unit}

/-- An access to shared static fields whose initializer has begun. -/
theorem leads_ensureInitialized (init : Watched Unit)
    (meets : watch.memory.meets (.shared (nameKey typeName)) = .ofOutcome outcome) :
    (ensureInitialized typeName init).leads watch = (some outcome, watch) := by
  have meets : watch.memory.shared.meets (nameKey typeName) = .ofOutcome outcome := meets
  rw [ensureInitialized, leads_get, SharedStatics.enter_eq, meets]
  cases outcome <;> rfl

/-- The first access to shared static fields. -/
theorem leads_ensureInitialized_first (init : Watched Unit)
    (first : watch.memory.meets (.shared (nameKey typeName)) = .first) :
    (ensureInitialized typeName init).leads watch =
      closing (fun outcome after => { after with
          memory := after.memory.withShared (after.memory.shared.leave typeName outcome) })
        (init.leads { watch with memory := watch.memory.marked typeName }) := by
  have first : watch.memory.shared.meets (nameKey typeName) = .first := first
  rw [ensureInitialized, leads_get, SharedStatics.enter_eq, first]
  change (attempt init >>= _).leads { watch with memory := watch.memory.marked typeName } = _
  rw [leads_bind, leads_attempt]
  rcases init.leads { watch with memory := watch.memory.marked typeName } with
    ⟨_ | _ | a, after⟩ <;> rfl

/-- An access to static fields of a context whose initializer has begun. -/
theorem leads_boundStatics {id : HolderId} (init : HolderId → Watched Unit)
    (numbered : watch.memory.number? context (nameKey typeName) = some id)
    (meets : watch.memory.meets (.bound context (nameKey typeName)) = .ofOutcome outcome) :
    (boundStatics context typeName init).leads watch = (some (outcome.map fun _ => id), watch) := by
  have meets : (watch.memory.context context).meets (nameKey typeName) = .ofOutcome outcome := meets
  rw [boundStatics, leads_get, Context.enterStatics_of_number? numbered, meets]
  cases outcome <;> rfl

/-- The first access to static fields of a context. -/
theorem leads_boundStatics_first (init : HolderId → Watched Unit) {id : HolderId} {entered : Context}
    (enters : (watch.memory.context context).enterStatics typeName = (.first, id, entered)) :
    (boundStatics context typeName init).leads watch =
      let led := closing (fun outcome after => { after with
          memory := after.memory.setContext context
            ((after.memory.context context).leaveStatics id outcome) })
        ((init id).leads { watch with memory := watch.memory.setContext context entered })
      (led.1.map fun outcome => outcome.map fun _ => id, led.2) := by
  rw [boundStatics, leads_get, enters]
  change (attempt (init id) >>= _).leads
    { watch with memory := watch.memory.setContext context entered } = _
  rw [leads_bind, leads_attempt]
  rcases (init id).leads { watch with memory := watch.memory.setContext context entered } with
    ⟨_ | _ | a, after⟩ <;> rfl

end Accesses

/-- The action is the other one, watched. -/
def Erases (x : Watched α) (y : Run α) : Prop :=
  ∀ watch : Watch, y.run watch.memory =
    (x.leads watch).1.map fun outcome => (outcome, (x.leads watch).2.memory)

namespace Erases

variable {x : Watched α} {y : Run α}

theorem pure (a : α) : Erases (pure a) (pure a) := fun _ => rfl

theorem throw (e : DispatchError) : Erases (throw e : Watched α) (MonadExcept.throw e) := fun _ => rfl

theorem exhausted : Erases (Watched.exhausted : Watched α) Run.exhausted := fun _ => rfl

theorem get : Erases (getThe Memory) (getThe Memory) := fun _ => rfl

theorem set (memory : Memory) : Erases (set memory : Watched Unit) (MonadStateOf.set memory) :=
  fun _ => rfl

theorem modify (f : Memory → Memory) : Erases (modifyThe Memory f) (modifyThe Memory f) := fun _ => rfl

theorem ofRun (y : Run α) : Erases (Watched.ofRun y) y := by
  intro watch
  rw [leads_ofRun]
  rcases y.run watch.memory with _ | ⟨outcome, memory⟩ <;> rfl

theorem bind {f : α → Watched β} {g : α → Run β} (h : Erases x y) (h' : ∀ a, Erases (f a) (g a)) :
    Erases (x >>= f) (y >>= g) := by
  intro watch
  change (y.run watch.memory).bind _ = _
  rw [h watch, leads_bind]
  rcases x.leads watch with ⟨_ | _ | a, after⟩
  · rfl
  · rfl
  · exact h' a after

/-- Writing something down changes nothing. -/
theorem noted (event : FieldEvent) (h : Erases x y) : Erases (note event >>= fun _ => x) y :=
  fun watch => h { watch with record := event :: watch.record }

theorem attempt (h : Erases x y) : Erases (Watched.attempt x) (Run.attempt y) := by
  intro watch
  simp only [Run.attempt, ExceptT.run_mk, h watch, leads_attempt]
  rcases x.leads watch with ⟨_ | r, after⟩ <;> rfl

theorem discard (h : Erases x y) : Erases (discard x) (discard y) := h.bind fun _ => pure ()

theorem ofExcept (r : Except DispatchError α) :
    Erases (MonadExcept.ofExcept r) (MonadExcept.ofExcept r) := by
  cases r with
  | ok a => exact pure a
  | error e => exact throw e

theorem outcomeOf {x : Watched Unit} {y : Run Unit} (h : Erases x y) :
    Erases (StackScript.outcomeOf x) (StackScript.outcomeOf y) := by
  rw [StackScript.outcomeOf_eq_attempt]
  exact h.attempt

theorem initializer (statics : Statics) {x : Watched Unit} {y : Run Unit} (h : Erases x y) :
    Erases (Watched.initializer statics x) y := by
  have unattempted : y = Run.attempt y >>= MonadExcept.ofExcept := by
    refine ExceptT.ext (funext fun memory => ?_)
    change y.run memory = ((Run.attempt y).run memory).bind _
    simp only [Run.attempt, ExceptT.run_mk]
    rcases y.run memory with _ | ⟨_ | a, after⟩ <;> rfl
  rw [unattempted]
  exact noted _ (h.attempt.bind fun outcome => noted _ (ofExcept outcome))

theorem ensureInitialized (typeName : String) {x : Watched Unit} {y : Run Unit} (h : Erases x y) :
    Erases (StackScript.ensureInitialized typeName x) (StackScript.ensureInitialized typeName y) := by
  refine get.bind fun memory => ?_
  generalize memory.shared.enter typeName = entered
  obtain ⟨admission, shared⟩ := entered
  cases admission with
  | granted => exact pure ()
  | refused e => exact throw e
  | first =>
    refine (set _).bind fun _ => h.outcomeOf.bind fun outcome => (modify _).bind fun _ => ?_
    cases outcome with
    | ok => exact pure ()
    | error e => exact throw e

theorem boundStatics (context : ContextId) (typeName : String) {x : HolderId → Watched Unit}
    {y : HolderId → Run Unit} (h : ∀ id, Erases (x id) (y id)) :
    Erases (StackScript.boundStatics context typeName x)
      (StackScript.boundStatics context typeName y) := by
  refine get.bind fun memory => ?_
  generalize (memory.context context).enterStatics typeName = entered
  obtain ⟨admission, id, entered⟩ := entered
  cases admission with
  | granted => exact pure id
  | refused e => exact throw e
  | first =>
    refine (set _).bind fun _ => (h id).outcomeOf.bind fun outcome => (modify _).bind fun _ => ?_
    cases outcome with
    | ok => exact pure id
    | error e => exact throw e

end Erases

end Watched

section Natives

variable {call : String → List Value → Watched Value} {call' : String → List Value → Run Value}
  {echo : String → Watched Unit} {echo' : String → Run Unit} {receiver : Value} {args : List Value}

mutual

/-- A routine of the host does the same if it is watched. -/
theorem Native.erases_watch (calls : ∀ name args, Erases (call name args) (call' name args))
    (echoes : ∀ text, Erases (echo text) (echo' text)) (native : Native) :
    Erases (Native.watch call echo receiver args native)
      (Native.run call' echo' receiver args native) := by
  cases native with
  | result | arguments | firstArgument | argumentCount | receiver => exact .pure _
  | throwing | failing => exact .throw _
  | echo text => exact (echoes text).bind fun _ => .pure _
  | call name => exact calls name args
  | sequence steps => exact Native.erases_watchAll calls echoes .null steps

theorem Native.erases_watchAll (calls : ∀ name args, Erases (call name args) (call' name args))
    (echoes : ∀ text, Erases (echo text) (echo' text)) (last : Value) (steps : List Native) :
    Erases (Native.watchAll call echo receiver args last steps)
      (Native.runAll call' echo' receiver args last steps) := by
  cases steps with
  | nil => exact .pure _
  | cons step rest =>
    exact (Native.erases_watch calls echoes step).bind fun value =>
      Native.erases_watchAll calls echoes value rest

end

end Natives

namespace Image

variable {image : Image} {watcher : Watcher} {run : Runner} {context : ContextId}

theorem erases_watchMember (h : ∀ activity, Erases (watcher context activity) (run context activity))
    (type : QualifiedName) (member : String) (args : List FrameArg) :
    Erases (image.watchMember watcher context type member args)
      (image.runInitializer run context type member args) := by
  unfold watchMember runInitializer
  cases image.body? (BodyName.method type member).key with
  | none => exact .pure ()
  | some body => exact (h _).discard

theorem erases_watchErrand (h : ∀ activity, Erases (watcher context activity) (run context activity))
    (body : String) (errand : Errand) :
    Erases (image.watchErrand watcher context body errand) (image.perform context run errand) := by
  cases errand with
  | answered value => exact .pure value
  | routine activity => exact h activity
  | construction object activity => exact (h activity).bind fun _ => .pure object
  | loadShared type field =>
    exact (Erases.ensureInitialized _ (.initializer _ (erases_watchMember h _ _ _))).bind fun _ =>
      Erases.get.bind fun _ => .noted _ (.pure _)
  | storeShared type field value =>
    exact (Erases.ensureInitialized _ (.initializer _ (erases_watchMember h _ _ _))).bind fun _ =>
      (Erases.modify _).bind fun _ => .noted _ (.pure _)
  | loadBound type field =>
    exact (Erases.boundStatics _ _ fun _ => .initializer _ (erases_watchMember h _ _ _)).bind fun _ =>
      Erases.get.bind fun _ => .noted _ (.pure _)
  | storeBound type field value =>
    exact (Erases.boundStatics _ _ fun _ => .initializer _ (erases_watchMember h _ _ _)).bind fun _ =>
      (Erases.modify _).bind fun _ => .noted _ (.pure _)

/-- **A run that is watched is the run.** -/
theorem erases_watch (image : Image) (fuel : Nat) (context : ContextId) (activity : Activity) :
    Erases (image.watch fuel context activity) (image.run fuel context activity) := by
  induction fuel generalizing activity with
  | zero => exact .exhausted
  | succ fuel ih =>
    cases activity with
    | native routine receiver args =>
      refine routine.erases_watch (fun name args => ?_) fun text => .modify _
      rw [callFunction_eq]
      exact (Erases.ofRun _).bind ih
    | frame body step =>
      cases step with
      | returned value => exact .pure value
      | failed error => exact .throw error
      | running frame => exact ih _
      | asking request frame =>
        refine Erases.bind (Erases.attempt ?_) fun answer => ih _
        rw [answer_eq]
        exact (Erases.ofRun _).bind fun errand => erases_watchErrand ih _ errand

end Image

end StackScript
