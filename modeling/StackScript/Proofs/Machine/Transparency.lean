import StackScript.Machine.Run
import StackScript.Proofs.Memory.Agreement

/-!
# Caches do not show

A program runs the same whatever the caches of its call sites have: from memories that agree up to
the caches, its routines lead to such memories, with the same results, or with errors that differ in
the letter case of a missing method's name at most. Here this is said of calls through one site,
one after the other: made with the caches, and made with caches that are emptied before each call
that the running routines make.

## Main definitions

* `Image.Known`: the types of a loaded program are known by their numbers
* `Image.runWith`: the run of a routine with an action before each request
* `Image.invokeAll`: calls through one site, one after the other

## Main results

* `Image.agree_answer`: requests are answered alike
* `Image.agree_runWith`: routines run alike
* `Image.agree_invokeAll`: so do calls through one site, however the routines are run
* `Image.invokeAll_afresh`: calls give what they give with empty caches
-/

namespace StackScript

variable {types : TypeId → RuntimeType} {memory memory' : Memory} {receiver receiver' : Value}

/-! ## Answers to requests -/

/-- One routine at work on what agrees. -/
inductive Activity.Agree (types : TypeId → RuntimeType) : Activity → Activity → Prop where
  | frame (body) {step step' : Step} : step.Mirrors (.known types) step' →
      Agree types (.frame body step) (.frame body step')
  | native {routine : Native} {receiver receiver' : Value} {args args' : List Value} :
      routine.Known types → ValuesAgree types receiver receiver' →
      ValuesMirror (.known types) args args' →
      Agree types (.native routine receiver args) (.native routine receiver' args')

/-- Two ways to run routines run the same routine alike. -/
def RunnersAgree (types : TypeId → RuntimeType) (run run' : Runner) : Prop :=
  ∀ context activity activity', Activity.Agree types activity activity' →
    RunsAgree types (ValuesAgree types) (run context activity) (run' context activity')

variable {receiver? receiver?' : Option Value} {frameArgs frameArgs' : List FrameArg}

theorem Activity.agree_ofBody (body : Body)
    (receivers : Option.Rel (ValuesAgree types) receiver? receiver?')
    (arguments : List.Forall₂ (FrameArg.Mirrors (.known types)) frameArgs frameArgs') :
    Activity.Agree types (.ofBody body receiver? frameArgs) (.ofBody body receiver?' frameArgs') :=
  .frame body (.running (.enter body receivers arguments))

namespace Image

/-- The types of a loaded program are known by their numbers. -/
def Known (types : TypeId → RuntimeType) (image : Image) : Prop :=
  ∀ name type, image.type? name = some type → types type.id = type

variable {image : Image} {run run' : Runner} {context : ContextId} {args args' : List Value}

theorem agree_bodyOf (key : String) :
    OutcomesAgree types Eq (image.bodyOf key) (image.bodyOf key) := by
  unfold bodyOf
  split
  · exact .ok rfl
  · exact .failed _

theorem agree_callRoutine (h : RunnersAgree types run run') (routine : RoutineRef)
    (receivers : Option.Rel (ValuesAgree types) receiver? receiver?')
    (arguments : ValuesMirror (.known types) args args') :
    RunsAgree types (ValuesAgree types) (image.callRoutine run context routine receiver? args)
      (image.callRoutine run' context routine receiver?' args') := by
  cases routine with
  | compiled key formals =>
    refine (RunsAgree.ofExcept (agree_bodyOf key)).bind fun body body' hbody => ?_
    subst hbody
    exact h _ _ _ (Activity.agree_ofBody body receivers
      (.cons .context (mirrors_layArgs formals arguments)))
  | native index =>
    refine RunsAgree.get.bind fun memory memory' hm => ?_
    rw [← hm.natives]
    cases hnative : memory.natives[index]? with
    | none => exact .throw (.failed _)
    | some native =>
      exact h _ _ _ (.native (hm.routines native (Array.mem_of_getElem? hnative))
        (rel_getD receivers .null) arguments)

theorem agree_callFunction (h : RunnersAgree types run run') (name : String)
    (arguments : ValuesMirror (.known types) args args') :
    RunsAgree types (ValuesAgree types) (image.callFunction run context name args)
      (image.callFunction run' context name args') := by
  refine RunsAgree.get.bind fun memory memory' hm => ?_
  rw [(hm.context context).function? name]
  cases (memory'.context context).function? name with
  | none => exact .throw (.same nofun)
  | some routine => exact agree_callRoutine h routine .none arguments

/-- **A call through a site** does not depend on what the site has in its cache. -/
theorem agree_invokeSite (h : RunnersAgree types run run') (shape : SiteShape)
    (receivers : ValuesAgree types receiver receiver')
    (arguments : ValuesMirror (.known types) args args') :
    RunsAgree types (ValuesAgree types) (image.invokeSite run context shape receiver args)
      (image.invokeSite run' context shape receiver' args') := by
  -- Both memories enter the site, whose caches may differ in what they hold but not in what they
  -- would answer.
  refine RunsAgree.get.bind fun memory memory' hm => ?_
  obtain ⟨hsite, hsites⟩ := hm.sites.site shape
  generalize memory.sites.site shape = entered at hsite hsites ⊢
  generalize memory'.sites.site shape = entered' at hsite hsites ⊢
  obtain ⟨site, sites⟩ := entered
  obtain ⟨site', sites'⟩ := entered'
  dsimp only at hsite hsites ⊢
  have prepared := CallSite.prepare_of_mirrors (fun _ => id) hsite.reached hsite.reached'
    hsite.shape receivers arguments
  have served : CallSite.Agree types (site.serve ⟨receiver, args⟩)
      (site'.serve ⟨receiver', args'⟩) :=
    { shape := by rw [CallSite.shape_serve, CallSite.shape_serve, hsite.shape]
      reached := hsite.reached.serve (receivers.typed (fun _ => id) _ args).1
      reached' := hsite.reached'.serve (receivers.typed (fun _ => id) _ args').2 }
  refine (RunsAgree.set (hm.withSites (hsites.update served))).bind fun _ _ _ =>
    (RunsAgree.ofExcept prepared).bind fun _ _ invocations => ?_
  rw [← invocations.method]
  exact agree_callRoutine h _ (.some (.object invocations.receiver)) invocations.args

theorem agree_flattenArgs (shape : SiteShape) (arguments : ValuesMirror (.known types) args args') :
    RunsAgree types (ValuesMirror (.known types)) (flattenArgs shape args)
      (flattenArgs shape args') := by
  refine RunsAgree.get.bind fun memory memory' hm => ?_
  obtain ⟨hsite, hsites⟩ := hm.sites.site shape
  exact (RunsAgree.set (hm.withSites hsites)).bind fun _ _ _ =>
    .ofExcept (CallSite.flatten_of_mirrors hsite.shape arguments)

theorem agree_awaitTypes :
    RunsAgree types (fun _ _ => True) image.awaitTypes image.awaitTypes := by
  unfold awaitTypes
  split
  · exact .pure trivial
  · exact .exhausted

theorem agree_create (h : RunnersAgree types run run') (himage : image.Known types)
    (type : QualifiedName)
    (arguments : List.Forall₂ (FrameArg.Mirrors (.known types)) frameArgs frameArgs') :
    RunsAgree types (ValuesAgree types) (image.create run context type frameArgs)
      (image.create run' context type frameArgs') := by
  refine agree_awaitTypes.bind fun _ _ _ => ?_
  cases htype : image.type? type.text with
  | none => exact .throw (.failed _)
  | some runtimeType =>
    refine RunsAgree.get.bind fun memory memory' hm => ?_
    obtain ⟨hobject, hcreated⟩ := hm.create runtimeType
    have hknown : Value.Known types (.object (memory.create runtimeType).1) :=
      .object (himage _ _ htype)
    generalize memory.create runtimeType = created at hobject hcreated hknown ⊢
    generalize memory'.create runtimeType = created' at hobject hcreated ⊢
    obtain ⟨object, created⟩ := created
    obtain ⟨object', created'⟩ := created'
    dsimp only at hobject hcreated hknown ⊢
    subst hobject
    refine (RunsAgree.set hcreated).bind fun _ _ _ =>
      (RunsAgree.ofExcept (agree_bodyOf _)).bind fun body body' hbody => ?_
    subst hbody
    exact (h _ _ _ (Activity.agree_ofBody body (.some hknown.mirrors) arguments)).bind
      fun _ _ _ => .pure hknown.mirrors

theorem agree_runInitializer (h : RunnersAgree types run run') (type : QualifiedName)
    (member : String)
    (arguments : List.Forall₂ (FrameArg.Mirrors (.known types)) frameArgs frameArgs') :
    RunsAgree types (fun _ _ => True) (image.runInitializer run context type member frameArgs)
      (image.runInitializer run' context type member frameArgs') := by
  unfold runInitializer
  cases image.body? (BodyName.method type member).key with
  | none => exact .pure trivial
  | some body => exact (h _ _ _ (Activity.agree_ofBody body .none arguments)).discard

theorem agree_initializeShared (h : RunnersAgree types run run') (type : QualifiedName) :
    RunsAgree types (fun _ _ => True) (image.initializeShared run context type)
      (image.initializeShared run' context type) :=
  .ensureInitialized _ (agree_runInitializer h type _ .nil)

theorem agree_initializeBound (h : RunnersAgree types run run') (type : QualifiedName) :
    RunsAgree types (fun id id' => id = id') (image.initializeBound run context type)
      (image.initializeBound run' context type) :=
  .boundStatics _ _ fun _ => agree_runInitializer h type _ (.cons .context .nil)

/-- **Requests are answered alike** where routines run alike. -/
theorem agree_answer (h : RunnersAgree types run run') (himage : image.Known types)
    {request request' : Request} (requests : request.Mirrors (.known types) request') :
    RunsAgree types (ValuesAgree types) (image.answer run context request)
      (image.answer run' context request') := by
  cases requests with
  | echo text =>
    exact (RunsAgree.modify fun _ _ hm => hm.echo context text).bind fun _ _ _ => .pure .null
  | @loadField a b field pair =>
    obtain ⟨rfl, -⟩ := pair
    exact RunsAgree.get.bind fun _ _ hm => .pure ((hm.fieldsOf a).get field)
  | @storeField a b _ _ field pair values =>
    obtain ⟨rfl, -⟩ := pair
    exact (RunsAgree.modify fun _ _ hm => hm.setField a field values).bind fun _ _ _ => .pure .null
  | loadShared type field =>
    exact (agree_initializeShared h type).bind fun _ _ _ => RunsAgree.get.bind fun _ _ hm =>
      .pure ((hm.shared.fieldsOf type.text).get field)
  | storeShared type field values =>
    exact (agree_initializeShared h type).bind fun _ _ _ =>
      (RunsAgree.modify fun _ _ hm =>
        hm.withShared (hm.shared.set type.text field values)).bind fun _ _ _ => .pure .null
  | loadBound type field =>
    refine (agree_initializeBound h type).bind fun id id' hid => RunsAgree.get.bind fun _ _ hm => ?_
    subst hid
    exact .pure ((hm.context context).getStatic id field)
  | storeBound type field values =>
    refine (agree_initializeBound h type).bind fun id id' hid => ?_
    subst hid
    exact (RunsAgree.modify fun _ _ hm => hm.setContext context
      ((hm.context context).setStatic id field values)).bind fun _ _ _ => .pure .null
  | call name receivers arguments =>
    refine (RunsAgree.ofExcept (agree_bodyOf _)).bind fun body body' hbody => ?_
    subst hbody
    exact h _ _ _ (Activity.agree_ofBody body receivers arguments)
  | callGlobal name arguments => exact agree_callFunction h name.text arguments
  | callSite shape receivers arguments =>
    exact (agree_flattenArgs shape arguments).bind fun _ _ arguments =>
      agree_invokeSite h shape receivers arguments
  | create type arguments => exact agree_create h himage type arguments

end Image

/-! ## Runs -/

/-- What a routine of the host does with calls and output that agree. -/
theorem Native.agree_run {call call' : String → List Value → Run Value}
    {echo echo' : String → Run Unit} {args args' : List Value}
    (hcall : ∀ name, RunsAgree types (ValuesAgree types) (call name args) (call' name args'))
    (hecho : ∀ text, RunsAgree types (fun _ _ => True) (echo text) (echo' text))
    (receivers : ValuesAgree types receiver receiver')
    (arguments : ValuesMirror (.known types) args args') {routine : Native}
    (h : routine.Known types) :
    RunsAgree types (ValuesAgree types) (routine.run call echo receiver args)
      (routine.run call' echo' receiver' args') := by
  induction h with
  | result hv => exact .pure hv.mirrors
  | throwing hv => exact .throw (.thrown hv.mirrors)
  | arguments => exact .pure (Value.mirrors_ofList arguments)
  | firstArgument =>
    cases arguments with
    | nil => exact .pure .null
    | cons first _ => exact .pure first
  | argumentCount =>
    simp only [Native.run, arguments.length_eq]
    exact .pure (.long _)
  | receiver => exact .pure receivers
  | failing text => exact .throw (.same nofun)
  | echo text => exact (hecho text).bind fun _ _ _ => .pure .null
  | call name => exact hcall name
  | @sequence steps hsteps ih =>
    clear hsteps
    simp only [Native.run]
    suffices hall : ∀ last last', ValuesAgree types last last' →
        RunsAgree types (ValuesAgree types) (Native.runAll call echo receiver args last steps)
          (Native.runAll call' echo' receiver' args' last' steps) from hall _ _ .null
    induction steps with
    | nil => exact fun _ _ hlast => .pure hlast
    | cons step rest ihrest =>
      exact fun _ _ _ => (ih step List.mem_cons_self).bind fun _ _ hv =>
        ihrest (fun native hn => ih native (List.mem_cons_of_mem _ hn)) _ _ hv

/-- The sites with these numbers, as they were before their first use. -/
def Registry.forget (registry : Registry) (which : SiteId → Bool) : Registry :=
  { registry with
    sites := registry.sites.map fun site =>
      if which site.shape.id then .new site.shape registry.capacity else site }

/-- The memory in which the sites with these numbers are as they were before their first use. -/
def Memory.forget (memory : Memory) (which : SiteId → Bool) : Memory :=
  { memory with sites := memory.sites.forget which }

/-- Memories go on to agree when one forgets what its sites have served. -/
theorem Memory.Agree.forget (h : memory.Agree types memory') (which : SiteId → Bool) :
    memory.Agree types (memory'.forget which) := by
  refine h.withSites ?_
  have hsites := h.sites
  unfold Registry.Agree at hsites ⊢
  simp only [Registry.forget]
  rw [List.forall₂_map_right_iff]
  refine hsites.imp fun site site' hsite => ?_
  split
  · exact ⟨hsite.shape, hsite.reached, .new _ _⟩
  · exact hsite

/-- A late-bound call is the one that its site would make if it had not been used. -/
def Memory.CallsAfresh (memory : Memory) (shape : SiteShape) (receiver : Value)
    (args : List Value) : Prop :=
  OutcomesAlike ((memory.sites.site shape).1.prepare receiver args).1
    ((CallSite.new (memory.sites.site shape).1.shape memory.sites.capacity).prepare receiver args).1

theorem Memory.Agree.callsAfresh (h : memory.Agree types memory') (shape : SiteShape)
    (receivers : ValuesAgree types receiver receiver') (args : List Value) :
    memory'.CallsAfresh shape receiver' args :=
  (h.sites.site shape).1.reached'.prepare_alike (.new _ _) rfl
    (receivers.typed (fun _ => id) _ args).2

/-- A late-bound call that is asked for is the one that its site would make if it had not been
used. -/
def Request.Afresh (memory : Memory) : Request → Prop
  | .callSite shape receiver pushed => ∀ args,
      (memory.sites.site shape).1.flatten pushed = .ok args →
        memory.CallsAfresh shape receiver args
  | _ => True

open scoped Classical in
/-- The run ends here unless the memory has the property. -/
noncomputable def Run.ensure (P : Memory → Prop) : Run Unit :=
  ExceptT.mk fun memory => if P memory then some (.ok (), memory) else none

/-- What the second memory has whenever memories agree does not end a run. -/
theorem RunsAgree.ensure {P : Memory → Prop}
    (h : ∀ memory memory' : Memory, memory.Agree types memory' → P memory') :
    RunsAgree types (fun _ _ => True) (Pure.pure ()) (Run.ensure P) := by
  intro memory memory' hm
  simp only [Run.ensure, ExceptT.run_mk, h memory memory' hm, if_true]
  exact .some ⟨.ok trivial, hm⟩

theorem RunsAgree.forget (which : SiteId → Bool) :
    RunsAgree types (fun _ _ => True) (Pure.pure ()) (modifyThe Memory (·.forget which)) :=
  fun _ _ hm => .some ⟨.ok trivial, hm.forget which⟩

namespace Image

/-- The run of a routine, as `run` has it, with an action before each request of a frame. -/
def runWith (image : Image) (before : Request → Run Unit) : Nat → Runner
  | 0, _, _ => Run.exhausted
  | fuel + 1, context, .frame body step =>
    match step with
    | .returned value => return value
    | .failed error => throw error
    | .running frame => image.runWith before fuel context (.frame body (body.step frame))
    | .asking request frame => do
      before request
      let answer ← Run.attempt (image.answer (image.runWith before fuel) context request)
      image.runWith before fuel context (.frame body (body.resume request frame answer))
  | fuel + 1, context, .native routine receiver args =>
    routine.run (image.callFunction (image.runWith before fuel) context)
      (fun text => modifyThe Memory (·.echo context text)) receiver args

/-- **Routines run alike** with an action before each request that leads to memories that agree
with the old ones. -/
theorem agree_runWith {image : Image} (himage : image.Known types) {before : Request → Run Unit}
    (hbefore : ∀ request request' : Request, request.Mirrors (.known types) request' →
      RunsAgree types (fun _ _ => True) (Pure.pure ()) (before request')) (fuel : Nat) :
    RunnersAgree types (image.run fuel) (image.runWith before fuel) := by
  induction fuel with
  | zero => exact fun _ _ _ _ => .exhausted
  | succ fuel ih =>
    intro context activity activity' hactivity
    cases hactivity with
    | native hroutine receivers arguments =>
      exact Native.agree_run (fun name => agree_callFunction ih name arguments)
        (fun text => .modify fun _ _ hm => hm.echo context text) receivers arguments hroutine
    | frame body steps =>
      cases steps with
      | returned values => exact .pure values
      | failed errors => exact .throw errors
      | running frames => exact ih _ _ _ (.frame body (body.step_of_mirrors frames))
      | asking requests frames =>
        exact (hbefore _ _ requests).bind fun _ _ _ =>
          (agree_answer ih himage requests).attempt.bind fun _ _ answers =>
            ih _ _ _ (.frame body (body.resume_of_mirrors requests frames answers))

end Image

/-! ## Calls one after the other -/

/-- A call as the host makes it. -/
structure HostCall where
  context : ContextId
  receiver : Value
  args : List Value

/-- The receiver and the arguments of a call are known. -/
structure HostCall.Known (types : TypeId → RuntimeType) (call : HostCall) : Prop where
  receiver : call.receiver.Known types
  args : ∀ v ∈ call.args, v.Known types

namespace Image

/-- Calls through the site of a shape, one after the other, with an action before each of them. An
error is the outcome of its call, and the next call is made. -/
def invokeAll (image : Image) (run : Runner) (before : HostCall → Run Unit) (shape : SiteShape) :
    List HostCall → Run (List (Except DispatchError Value))
  | [] => return []
  | call :: rest => do
    before call
    let outcome ← Run.attempt
      (image.invokeSite run call.context shape call.receiver call.args)
    return outcome :: (← image.invokeAll run before shape rest)

/-- **Calls through one site give outcomes that agree**, whatever runs the routines, the host's
included, if it respects agreement, and whatever comes before each call, if it only changes caches. -/
theorem agree_invokeAll {image : Image} {run run' : Runner} (hrun : RunnersAgree types run run')
    {before : HostCall → Run Unit}
    (hbefore : ∀ call : HostCall, call.Known types →
      RunsAgree types (fun _ _ => True) (Pure.pure ()) (before call))
    (shape : SiteShape) {calls : List HostCall} (hcalls : ∀ call ∈ calls, call.Known types) :
    RunsAgree types (List.Forall₂ (OutcomesAgree types (ValuesAgree types)))
      (image.invokeAll run (fun _ => Pure.pure ()) shape calls)
      (image.invokeAll run' before shape calls) := by
  induction calls with
  | nil => exact .pure .nil
  | cons call rest ih =>
    simp only [List.mem_cons, forall_eq_or_imp] at hcalls
    obtain ⟨hcall, hrest⟩ := hcalls
    refine (hbefore call hcall).bind fun _ _ _ => ?_
    refine (agree_invokeSite hrun shape hcall.receiver.mirrors
      (valuesMirror_known hcall.args)).attempt.bind fun outcome outcome' houtcome => ?_
    exact (ih hrest).bind fun _ _ houtcomes => .pure (.cons houtcome houtcomes)

/-- **Caches do not show.** Calls through one site are made one after the other, in any contexts, on
any receivers, with any arguments, and the routines that run make calls of their own. From memories
that agree these give outcomes that agree, and again memories that agree,

* if each call, those of the running routines included, ends the run unless it is the call that its
  site would make if it had not been used: so each is the call of the same method on the same
  receiver with the same converted arguments, or fails alike;
* if before each call, those of the running routines included, the sites with any given numbers are
  set back to what they were before their first use. -/
theorem invokeAll_afresh {image : Image} (himage : image.Known types) (shape : SiteShape)
    {calls : List HostCall} (hcalls : ∀ call ∈ calls, call.Known types) (fuel : Nat)
    (which : SiteId → Bool) :
    RunsAgree types (List.Forall₂ (OutcomesAgree types (ValuesAgree types)))
      (image.invokeAll (image.run fuel) (fun _ => Pure.pure ()) shape calls)
      (image.invokeAll (image.runWith (fun request => .ensure (request.Afresh ·)) fuel)
        (fun call => .ensure (·.CallsAfresh shape call.receiver call.args)) shape calls) ∧
    RunsAgree types (List.Forall₂ (OutcomesAgree types (ValuesAgree types)))
      (image.invokeAll (image.run fuel) (fun _ => Pure.pure ()) shape calls)
      (image.invokeAll (image.runWith (fun _ => modifyThe Memory (·.forget which)) fuel)
        (fun _ => modifyThe Memory (·.forget which)) shape calls) := by
  refine ⟨agree_invokeAll (agree_runWith himage (fun _ request requests => ?_) fuel)
      (fun call hcall => ?_) shape hcalls,
    agree_invokeAll (agree_runWith himage (fun _ _ _ => .forget which) fuel)
      (fun _ _ => .forget which) shape hcalls⟩
  · refine .ensure fun memory memory' hm => ?_
    cases requests with
    | callSite shape receivers _ => exact fun args _ => hm.callsAfresh shape receivers args
    | _ => exact trivial
  · exact .ensure fun memory memory' hm => hm.callsAfresh shape hcall.receiver.mirrors call.args

/-- Calls of a method under a computed name, in two spellings, and of one that is missing. -/
theorem invokeAll_afresh_computed :
    let type : RuntimeType := .extend none 0 "A" [⟨"m", "A", [], .native 0⟩]
    let image : Image := ⟨[], some ⟨[("a", type)], 1⟩⟩
    let shape : SiteShape := ⟨1, .computed, [.value]⟩
    let calls := ["m", "M", "n", "N"].map fun name =>
      HostCall.mk 0 (.object ⟨0, type⟩) [.string name]
    let which := fun (_ : SiteId) => true
    RunsAgree (fun _ => type) (List.Forall₂ (OutcomesAgree (fun _ => type)
        (ValuesAgree fun _ => type)))
      (image.invokeAll (image.run 9) (fun _ => Pure.pure ()) shape calls)
      (image.invokeAll (image.runWith (fun _ => modifyThe Memory (·.forget which)) 9)
        (fun _ => modifyThe Memory (·.forget which)) shape calls) := by
  intro type image shape calls which
  have himage : image.Known fun _ => type := by
    intro name other hother
    simp only [Image.type?, TypeStore.type?, Option.bind_some, image, List.lookup_cons,
      List.lookup_nil] at hother
    grind
  have hcalls : ∀ call ∈ calls, call.Known fun _ => type := by
    intro call hcall
    obtain ⟨name, -, rfl⟩ := List.mem_map.mp hcall
    exact ⟨.object rfl, fun v hv => List.mem_singleton.mp hv ▸ .string name⟩
  exact (invokeAll_afresh himage shape hcalls 9 which).2

end Image

end StackScript
