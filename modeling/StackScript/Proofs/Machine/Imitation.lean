import StackScript.Proofs.Machine.Moves
import StackScript.Proofs.Machine.Transparency

/-!
# Routines that imitate themselves

An action imitates another one if it does whatever the other does, on memories that differ in their
call sites at most: where the one comes to an end, the other ends with the same outcome, and in the
same state but for the call sites. It may end in more cases. Actions that are put together from
parts that imitate each other do so too.

A routine that is run with more fuel, or in a memory with other call sites that do the same for it,
does what it did before. Both are instances of one statement, about a relation between call sites
that the calls of a program keep. What is needed of a receiver may be checked before each call.

## Main definitions

* `Imitates S x y`: the action `y` does what `x` does, for memories and call sites related by `S`
* `Lasts S`: only what happens to objects and call sites matters for `S`
* `AnswersAlike`: what requests that are admitted keep
* `SitesAlike.answersAlike`, `answersAlike_has`: relations between call sites, and properties of
  objects
* `Image.Admits`: the call sites of a program's bodies are admitted

## Main results

* `Imitates.bind`, `Imitates.get`: actions one behind the other, and reading the memory
* `Imitates.ensureInitialized`, `Imitates.boundStatics`: accesses to static fields
* `Image.imitates_runWith`: routines imitate themselves, with as much fuel or more
* `Image.run_mono`: with more fuel a routine ends as before
-/

namespace StackScript

/-! ## Actions -/

/-- From one memory, and the same memory with other call sites: what the first action ends with,
the second one ends with too, and the call sites are related again. -/
def ImitatesAt {α : Type} (S : Memory → Registry → Prop) (memory : Memory) (sites : Registry)
    (x y : Run α) : Prop :=
  ∀ outcome after, x.run memory = some (outcome, after) → ∃ sites',
    y.run { memory with sites } = some (outcome, { after with sites := sites' }) ∧ S after sites'

/-- The second action does what the first one does, wherever the memory and the other call sites
are related. -/
def Imitates {α : Type} (S : Memory → Registry → Prop) (x y : Run α) : Prop :=
  ∀ memory sites, S memory sites → ImitatesAt S memory sites x y

/-- The relation looks at objects and call sites alone, and a new object does not matter. -/
structure Lasts (S : Memory → Registry → Prop) : Prop where
  kept : ∀ {memory next : Memory} {sites}, S memory sites → next.objects = memory.objects →
    next.sites = memory.sites → S next sites
  created : ∀ {memory : Memory} {sites} type, S memory sites → S (memory.create type).2 sites

namespace Imitates

variable {S : Memory → Registry → Prop} {α β : Type} {x y : Run α} {f g : α → Run β}
  {memory : Memory} {sites : Registry}

theorem pure (a : α) : Imitates S (Pure.pure a) (Pure.pure a) := by
  rintro memory sites related outcome after ⟨⟩
  exact ⟨sites, rfl, related⟩

theorem throw (e : DispatchError) :
    Imitates S (MonadExcept.throw e : Run α) (MonadExcept.throw e) := by
  rintro memory sites related outcome after ⟨⟩
  exact ⟨sites, rfl, related⟩

theorem ofExcept (x : Except DispatchError α) :
    Imitates S (MonadExcept.ofExcept x) (MonadExcept.ofExcept x) := by
  cases x with
  | error e => exact throw e
  | ok a => exact pure a

/-- An action that never ends is imitated by every other. -/
theorem exhausted : Imitates S Run.exhausted y := by
  rintro memory sites related outcome after ⟨⟩

theorem bindAt (h : ImitatesAt S memory sites x y) (h' : ∀ a, Imitates S (f a) (g a)) :
    ImitatesAt S memory sites (x >>= f) (y >>= g) := by
  intro outcome after ends
  change ((x.run memory).bind _) = _ at ends
  change ∃ sites', ((y.run { memory with sites }).bind _) = _ ∧ _
  cases first : x.run memory with
  | none =>
    rw [first] at ends
    cases ends
  | some r =>
    obtain ⟨result, between⟩ := r
    obtain ⟨sites', imitated, related⟩ := h result between first
    rw [first] at ends
    rw [imitated]
    cases result with
    | error e =>
      cases ends
      exact ⟨sites', rfl, related⟩
    | ok a => exact h' a between sites' related outcome after ends

theorem bind (h : Imitates S x y) (h' : ∀ a, Imitates S (f a) (g a)) :
    Imitates S (x >>= f) (y >>= g) :=
  fun memory sites related => bindAt (h memory sites related) h'

/-- Behind actions that change nothing: the first one comes to its end only where something holds
and the second one comes to its end too. -/
theorem behind {P : Prop} {first first' : Run Unit}
    (h : ∀ memory sites, S memory sites → ∀ outcome after,
      first.run memory = some (outcome, after) → outcome = .ok () ∧ after = memory ∧ P ∧
        first'.run { memory with sites } = some (.ok (), { memory with sites }))
    (h' : P → Imitates S x y) : Imitates S (first >>= fun _ => x) (first' >>= fun _ => y) := by
  intro memory sites related outcome after ends
  change ((first.run memory).bind _) = _ at ends
  change ∃ sites', ((first'.run { memory with sites }).bind _) = _ ∧ _
  cases reached : first.run memory with
  | none =>
    rw [reached] at ends
    cases ends
  | some r =>
    obtain ⟨result, between⟩ := r
    obtain ⟨rfl, rfl, holds, reached'⟩ := h memory sites related result between reached
    rw [reached] at ends
    rw [reached']
    exact h' holds _ sites related outcome after ends

/-- What an action reads of the memory is the same but for the call sites. -/
theorem get {f g : Memory → Run β} (h : ∀ memory sites, S memory sites →
    ImitatesAt S memory sites (f memory) (g { memory with sites })) :
    Imitates S (getThe Memory >>= f) (getThe Memory >>= g) :=
  fun memory sites related => h memory sites related

/-- The memory is replaced, and the action goes on. -/
theorem set {x y : Run β} (next : Memory) {others : Registry} (related : S next others)
    (h : Imitates S x y) :
    ImitatesAt S memory sites (MonadStateOf.set next >>= fun _ => x)
      (MonadStateOf.set { next with sites := others } >>= fun _ => y) :=
  h next others related

/-- A change of the memory that leaves the call sites alone, and keeps the relation. -/
theorem modify {f : Memory → Memory} (h : ∀ memory sites,
    f { memory with sites } = { f memory with sites })
    (kept : ∀ memory sites, S memory sites → S (f memory) sites) :
    Imitates S (modifyThe Memory f) (modifyThe Memory f) := by
  rintro memory sites related outcome after ⟨⟩
  refine ⟨sites, ?_, kept memory sites related⟩
  change some (Except.ok (), f { memory with sites }) = _
  rw [h]

/-- A change of the memory that has nothing to do with objects and call sites. -/
theorem adjust (hS : Lasts S) {f : Memory → Memory} (h : ∀ memory sites,
    f { memory with sites } = { f memory with sites })
    (objects : ∀ memory, (f memory).objects = memory.objects)
    (sites : ∀ memory, (f memory).sites = memory.sites) :
    Imitates S (modifyThe Memory f) (modifyThe Memory f) :=
  modify h fun memory _ related => hS.kept related (objects memory) (sites memory)

theorem attempt (h : Imitates S x y) : Imitates S (Run.attempt x) (Run.attempt y) := by
  intro memory sites related outcome after ends
  simp only [Run.attempt, ExceptT.run_mk] at ends ⊢
  cases first : x.run memory with
  | none =>
    rw [first] at ends
    cases ends
  | some r =>
    obtain ⟨result, between⟩ := r
    obtain ⟨sites', imitated, related⟩ := h memory sites related result between first
    rw [first] at ends
    cases ends
    rw [imitated]
    exact ⟨sites', rfl, related⟩

theorem outcomeOf {x y : Run Unit} (h : Imitates S x y) :
    Imitates S (StackScript.outcomeOf x) (StackScript.outcomeOf y) := by
  rw [outcomeOf_eq_attempt, outcomeOf_eq_attempt]
  exact h.attempt

theorem discard (h : Imitates S x y) : Imitates S (discard x) (discard y) :=
  h.bind fun _ => pure ()

/-! ## Static fields -/

theorem ensureInitialized (hS : Lasts S) (typeName : String) {x y : Run Unit}
    (h : Imitates S x y) :
    Imitates S (StackScript.ensureInitialized typeName x)
      (StackScript.ensureInitialized typeName y) := by
  refine get fun memory sites related => ?_
  dsimp only
  generalize memory.shared.enter typeName = entered
  obtain ⟨admission, shared⟩ := entered
  cases admission with
  | granted => exact pure () memory sites related
  | refused e => exact throw e memory sites related
  | first =>
    refine set { memory with shared } (hS.kept related rfl rfl) (h.outcomeOf.bind fun outcome =>
      (adjust hS (by intros; rfl) (by intros; rfl) (by intros; rfl)).bind fun _ => ?_)
    cases outcome with
    | ok => exact pure ()
    | error e => exact throw e

theorem boundStatics (hS : Lasts S) (context : ContextId) (typeName : String)
    {x y : HolderId → Run Unit} (h : ∀ id, Imitates S (x id) (y id)) :
    Imitates S (StackScript.boundStatics context typeName x)
      (StackScript.boundStatics context typeName y) := by
  refine get fun memory sites related => ?_
  rw [show Memory.context { memory with sites } context = memory.context context from rfl]
  generalize (memory.context context).enterStatics typeName = entered
  obtain ⟨admission, id, entered⟩ := entered
  cases admission with
  | granted => exact pure id memory sites related
  | refused e => exact throw e memory sites related
  | first =>
    refine set (memory.setContext context entered) (hS.kept related rfl rfl)
      ((h id).outcomeOf.bind fun outcome =>
        (adjust hS (by intros; rfl) (by intros; rfl) (by intros; rfl)).bind fun _ => ?_)
    cases outcome with
    | ok => exact pure id
    | error e => exact throw e

end Imitates

/-! ## Runs -/

/-- A run that has not ended where a property is asked for has come to a memory that has it. -/
theorem Run.run_ensure {P : Memory → Prop} {memory after : Memory}
    {outcome : Except DispatchError Unit} :
    (Run.ensure P).run memory = some (outcome, after) ↔
      outcome = .ok () ∧ after = memory ∧ P memory := by
  rw [ensure, ExceptT.run_mk]
  split
  · next holds =>
    constructor
    · rintro ⟨⟩
      exact ⟨rfl, rfl, holds⟩
    · rintro ⟨rfl, rfl, -⟩
      rfl
  · next no =>
    constructor
    · rintro ⟨⟩
    · rintro ⟨-, -, holds⟩
      exact (no holds).elim

/-! ## What is admitted -/

/-- What is asked for is an admitted call, if it is a call through a site. -/
def Request.Admitted (A : SiteShape → Value → Prop) : Request → Prop
  | .callSite shape receiver _ => A shape receiver
  | _ => True

/-- Calls through sites of admitted shapes on admitted receivers come to the same, and keep the call
sites related. -/
structure SitesAlike (A : SiteShape → Value → Prop) (S : Registry → Registry → Prop) : Prop where
  shape : ∀ {sites others shape receiver}, S sites others → A shape receiver →
    (others.site shape).1.shape = (sites.site shape).1.shape
  prepared : ∀ {sites others shape receiver}, S sites others → A shape receiver → ∀ args,
    ((others.site shape).1.prepare receiver args).1 = ((sites.site shape).1.prepare receiver args).1
  entered : ∀ {sites others shape receiver}, S sites others → A shape receiver →
    S (sites.site shape).2 (others.site shape).2
  served : ∀ {sites others shape receiver}, S sites others → A shape receiver → ∀ args,
    S ((sites.site shape).2.update ((sites.site shape).1.prepare receiver args).2)
      ((others.site shape).2.update ((others.site shape).1.prepare receiver args).2)

/-- Requests that are admitted are answered alike, and keep memories and call sites related. -/
structure AnswersAlike (A : Request → Prop) (S : Memory → Registry → Prop) : Prop
    extends Lasts S where
  stored : ∀ {memory sites object field value}, S memory sites →
    A (.storeField object field value) → S (memory.setField object field value) sites
  shape : ∀ {memory others shape receiver pushed}, S memory others →
    A (.callSite shape receiver pushed) →
    (others.site shape).1.shape = (memory.sites.site shape).1.shape
  prepared : ∀ {memory others shape receiver pushed}, S memory others →
    A (.callSite shape receiver pushed) → ∀ args,
    ((others.site shape).1.prepare receiver args).1 =
      ((memory.sites.site shape).1.prepare receiver args).1
  entered : ∀ {memory others shape receiver pushed}, S memory others →
    A (.callSite shape receiver pushed) →
    S { memory with sites := (memory.sites.site shape).2 } (others.site shape).2
  served : ∀ {memory others shape receiver pushed}, S memory others →
    A (.callSite shape receiver pushed) → ∀ args,
    S { memory with
        sites := (memory.sites.site shape).2.update
          ((memory.sites.site shape).1.prepare receiver args).2 }
      ((others.site shape).2.update ((others.site shape).1.prepare receiver args).2)

/-- Objects do not matter for a relation between call sites. -/
theorem SitesAlike.answersAlike {A : SiteShape → Value → Prop} {S : Registry → Registry → Prop}
    (h : SitesAlike A S) :
    AnswersAlike (·.Admitted A) fun memory sites => S memory.sites sites where
  kept related _ sites := by rwa [sites]
  created _ related := related
  stored related _ := related
  shape related admitted := h.shape related admitted
  prepared related admitted := h.prepared related admitted
  entered related admitted := h.entered related admitted
  served related admitted := h.served related admitted

/-- The call sites are those of the memory, and the objects have a property. -/
def Memory.Has (P : Array Fields → Prop) (memory : Memory) (sites : Registry) : Prop :=
  sites = memory.sites ∧ P memory.objects

/-- A property of objects that new objects and admitted assignments keep. -/
theorem answersAlike_has {A : Request → Prop} {P : Array Fields → Prop}
    (created : ∀ objects, P objects → P (objects.push .empty))
    (stored : ∀ {objects object field value}, P objects → A (.storeField object field value) →
      P (objects.modify object.id (·.set field value))) :
    AnswersAlike A (Memory.Has P) where
  kept related objects sites := ⟨related.1.trans sites.symm, objects ▸ related.2⟩
  created _ related := ⟨related.1, created _ related.2⟩
  stored related admitted := ⟨related.1, stored related.2 admitted⟩
  shape related _ := by rw [related.1]
  prepared related _ _ := by rw [related.1]
  entered related _ := ⟨by rw [related.1], related.2⟩
  served related _ _ := ⟨by rw [related.1], related.2⟩

section Admission

variable (B : SiteShape → Prop)

/-- The call sites in the body's code are admitted. -/
def Body.Admits (body : Body) : Prop := ∀ shape, .callSite shape ∈ body.code → B shape

/-- The step asks for no call through a site that is not admitted. -/
def Step.Admitted : Step → Prop
  | .asking request _ => request.Admitted fun shape _ => B shape
  | _ => True

/-- The routine goes through admitted sites alone. -/
def Activity.Admitted : Activity → Prop
  | .frame body step => body.Admits B ∧ step.Admitted B
  | .native .. => True

/-- The call sites in the program's code are admitted. -/
def Image.Admits (image : Image) : Prop := ∀ key body, image.body? key = some body → body.Admits B

end Admission

variable {A : Request → Prop} {B : SiteShape → Prop} {S : Memory → Registry → Prop} (body : Body)

theorem Body.admitted_raise (frame : Frame) (error : DispatchError) :
    (body.raise frame error).Admitted B := by
  unfold raise
  split
  · split <;> trivial
  · trivial

/-- What a body asks for is admitted if its call sites are. -/
theorem Body.Admits.step {body : Body} (h : body.Admits B) (frame : Frame) :
    (body.step frame).Admitted B := by
  unfold Body.step
  split
  case h_1 => exact body.admitted_raise _ _
  case h_2 i hi =>
    split
    case h_1 => exact body.admitted_raise _ _
    case h_4 request after asked =>
      have made := frame.yields_asked i _ asked
      cases request with
      | callSite shape receiver args =>
        obtain rfl : i = .callSite shape := made
        exact h shape (Array.mem_of_getElem? hi)
      | _ => trivial
    case h_6 =>
      split
      · trivial
      · exact body.admitted_raise _ _
      · trivial
    all_goals trivial

theorem Body.admitted_resume (request : Request) (frame : Frame)
    (answer : Except DispatchError Value) : (body.resume request frame answer).Admitted B := by
  unfold resume
  split
  · exact body.admitted_raise _ _
  · trivial

/-! ## Requests -/

namespace Image

/-- One way to run routines imitates another on routines that are admitted. -/
def RunnersImitate (B : SiteShape → Prop) (S : Memory → Registry → Prop) (run run' : Runner) :
    Prop :=
  ∀ context activity, activity.Admitted B → Imitates S (run context activity) (run' context activity)

variable {image : Image} {run run' : Runner} {context : ContextId} {pushed : List Value}
    {shape : SiteShape}

theorem imitates_ofBody (h : RunnersImitate B S run run') {body : Body} (admits : body.Admits B)
    (receiver : Option Value) (args : List FrameArg) :
    Imitates S (run context (.ofBody body receiver args)) (run' context (.ofBody body receiver args)) :=
  h context _ ⟨admits, trivial⟩

/-- A body that is found is admitted. -/
theorem imitates_bodyOf {α : Type} (himage : image.Admits B) {key : String}
    {f g : Body → Run α} (h : ∀ body, body.Admits B → Imitates S (f body) (g body)) :
    Imitates S (MonadExcept.ofExcept (image.bodyOf key) >>= f)
      (MonadExcept.ofExcept (image.bodyOf key) >>= g) := by
  unfold bodyOf
  cases found : image.body? key with
  | none =>
    intro memory sites related
    exact Imitates.throw (.failed (.noBody key)) memory sites related
  | some body => exact h body (himage key body found)

theorem imitates_callRoutine (h : RunnersImitate B S run run') (himage : image.Admits B)
    (routine : RoutineRef) (receiver : Option Value) (args : List Value) :
    Imitates S (image.callRoutine run context routine receiver args)
      (image.callRoutine run' context routine receiver args) := by
  cases routine with
  | compiled key formals =>
    exact imitates_bodyOf himage fun body admits => imitates_ofBody h admits _ _
  | native index =>
    refine Imitates.get fun memory sites related => ?_
    dsimp only
    split
    · exact h context (.native ..) trivial memory sites related
    · exact Imitates.throw _ memory sites related

theorem imitates_callFunction (h : RunnersImitate B S run run') (himage : image.Admits B)
    (name : String) (args : List Value) :
    Imitates S (image.callFunction run context name args)
      (image.callFunction run' context name args) := by
  refine Imitates.get fun memory sites related => ?_
  rw [show Memory.context { memory with sites } context = memory.context context from rfl]
  split
  · exact imitates_callRoutine h himage _ _ _ memory sites related
  · exact Imitates.throw _ memory sites related

theorem imitates_invokeSite (hS : AnswersAlike A S) (h : RunnersImitate B S run run')
    (himage : image.Admits B) {receiver : Value} (admitted : A (.callSite shape receiver pushed))
    (args : List Value) :
    Imitates S (image.invokeSite run context shape receiver args)
      (image.invokeSite run' context shape receiver args) := by
  refine Imitates.get fun memory sites related => ?_
  have prepared := hS.prepared related admitted args
  have served := hS.served related admitted args
  dsimp only
  generalize memory.sites.site shape = entered at prepared served ⊢
  generalize sites.site shape = entered' at prepared served ⊢
  generalize entered.1.prepare receiver args = outcome at prepared served ⊢
  generalize entered'.1.prepare receiver args = outcome' at prepared served ⊢
  rw [prepared]
  exact Imitates.set _ served ((Imitates.ofExcept _).bind fun invocation =>
    imitates_callRoutine h himage _ _ _)

theorem imitates_flattenArgs (hS : AnswersAlike A S) {receiver : Value}
    (admitted : A (.callSite shape receiver pushed)) :
    Imitates S (flattenArgs shape pushed) (flattenArgs shape pushed) := by
  refine Imitates.get fun memory sites related => ?_
  have same := hS.shape related admitted
  dsimp only
  unfold CallSite.flatten
  rw [same]
  exact Imitates.set _ (hS.entered related admitted) (Imitates.ofExcept _)

theorem imitates_create (hS : Lasts S) (h : RunnersImitate B S run run') (himage : image.Admits B)
    (type : QualifiedName) (args : List FrameArg) :
    Imitates S (image.create run context type args) (image.create run' context type args) := by
  have awaits : Imitates S image.awaitTypes image.awaitTypes := by
    unfold awaitTypes
    split
    · exact Imitates.pure ()
    · exact Imitates.exhausted
  refine awaits.bind fun _ => ?_
  split
  case h_1 => exact Imitates.throw _
  case h_2 runtimeType _ =>
    refine Imitates.get fun memory sites related => ?_
    exact Imitates.set (memory.create runtimeType).2 (hS.created runtimeType related)
      (imitates_bodyOf himage fun body admits =>
        (imitates_ofBody h admits _ _).bind fun _ => Imitates.pure _)

theorem imitates_runInitializer (h : RunnersImitate B S run run') (himage : image.Admits B)
    (type : QualifiedName) (member : String) (args : List FrameArg) :
    Imitates S (image.runInitializer run context type member args)
      (image.runInitializer run' context type member args) := by
  unfold runInitializer
  split
  case h_1 body found => exact (imitates_ofBody h (himage _ _ found) _ _).discard
  case h_2 => exact Imitates.pure ()

theorem imitates_initializeShared (hS : Lasts S) (h : RunnersImitate B S run run')
    (himage : image.Admits B) (type : QualifiedName) :
    Imitates S (image.initializeShared run context type)
      (image.initializeShared run' context type) :=
  Imitates.ensureInitialized hS _ (imitates_runInitializer h himage type _ _)

theorem imitates_initializeBound (hS : Lasts S) (h : RunnersImitate B S run run')
    (himage : image.Admits B) (type : QualifiedName) :
    Imitates S (image.initializeBound run context type) (image.initializeBound run' context type) :=
  Imitates.boundStatics hS _ _ fun _ => imitates_runInitializer h himage type _ _

/-- **Requests are answered alike** where routines imitate each other. -/
theorem imitates_answer (hS : AnswersAlike A S) (h : RunnersImitate B S run run')
    (himage : image.Admits B) {request : Request} (admitted : A request) :
    Imitates S (image.answer run context request) (image.answer run' context request) := by
  have lasts := hS.toLasts
  cases request with
  | echo text =>
    exact (Imitates.adjust lasts (by intros; rfl) (by intros; rfl) (by intros; rfl)).bind fun _ =>
      Imitates.pure _
  | loadField object field =>
    exact Imitates.get fun memory sites related => Imitates.pure _ memory sites related
  | storeField object field value =>
    have stored (memory : Memory) (sites : Registry) (related : S memory sites) :
        S (memory.setField object field value) sites := hS.stored related admitted
    exact (Imitates.modify (by intros; rfl) stored).bind fun _ => Imitates.pure _
  | loadShared type field =>
    exact (imitates_initializeShared lasts h himage type).bind fun _ =>
      Imitates.get fun memory sites related => Imitates.pure _ memory sites related
  | storeShared type field value =>
    exact (imitates_initializeShared lasts h himage type).bind fun _ =>
      (Imitates.adjust lasts (by intros; rfl) (by intros; rfl) (by intros; rfl)).bind fun _ =>
        Imitates.pure _
  | loadBound type field =>
    exact (imitates_initializeBound lasts h himage type).bind fun id =>
      Imitates.get fun memory sites related => Imitates.pure _ memory sites related
  | storeBound type field value =>
    exact (imitates_initializeBound lasts h himage type).bind fun id =>
      (Imitates.adjust lasts (by intros; rfl) (by intros; rfl) (by intros; rfl)).bind fun _ =>
        Imitates.pure _
  | call name receiver args =>
    exact imitates_bodyOf himage fun body admits => imitates_ofBody h admits _ _
  | callGlobal name args => exact imitates_callFunction h himage _ _
  | callSite shape receiver pushed =>
    exact (imitates_flattenArgs hS admitted).bind fun args =>
      imitates_invokeSite hS h himage admitted args
  | create type args => exact imitates_create lasts h himage type args

end Image

/-! ## Runs -/

section Native

variable {call call' : String → List Value → Run Value} {echo echo' : String → Run Unit}

mutual

/-- A routine of the host with calls and output that imitate others. -/
theorem Native.imitates_run (hcall : ∀ name args, Imitates S (call name args) (call' name args))
    (hecho : ∀ text, Imitates S (echo text) (echo' text)) (receiver : Value) (args : List Value) :
    ∀ routine : Native,
      Imitates S (routine.run call echo receiver args) (routine.run call' echo' receiver args)
  | .result value => Imitates.pure value
  | .arguments => Imitates.pure _
  | .firstArgument => Imitates.pure _
  | .argumentCount => Imitates.pure _
  | .receiver => Imitates.pure receiver
  | .throwing value => Imitates.throw (.thrown value)
  | .failing text => Imitates.throw (.failed (.native text))
  | .echo text => (hecho text).bind fun _ => Imitates.pure Value.null
  | .call name => hcall name args
  | .sequence steps => Native.imitates_runAll hcall hecho receiver args steps .null

/-- Several routines of the host, one after the other. -/
theorem Native.imitates_runAll
    (hcall : ∀ name args, Imitates S (call name args) (call' name args))
    (hecho : ∀ text, Imitates S (echo text) (echo' text)) (receiver : Value) (args : List Value) :
    ∀ (steps : List Native) (last : Value),
      Imitates S (Native.runAll call echo receiver args last steps)
        (Native.runAll call' echo' receiver args last steps)
  | [], last => Imitates.pure last
  | step :: rest, _ =>
    (Native.imitates_run hcall hecho receiver args step).bind fun value =>
      Native.imitates_runAll hcall hecho receiver args rest value

end

end Native

namespace Image

variable {image : Image} {activity : Activity} {after memory : Memory} {fuel fuel' : Nat}
    {outcome : Except DispatchError Value}

/-- **Routines imitate themselves**, with as much fuel or more. What is done before each request
changes nothing; it ends the run that is imitated unless the request is admitted, and the other run
only where it ends that one. -/
theorem imitates_runWith (hS : AnswersAlike A S) (himage : image.Admits B)
    {before before' : Request → Run Unit}
    (hbefore : ∀ request : Request, request.Admitted (fun shape _ => B shape) →
      ∀ memory sites, S memory sites →
      ∀ outcome after, (before request).run memory = some (outcome, after) →
      outcome = .ok () ∧ after = memory ∧ A request ∧
      (before' request).run { memory with sites } = some (.ok (), { memory with sites }))
    (enough : fuel ≤ fuel') :
    RunnersImitate B S (image.runWith before fuel) (image.runWith before' fuel') := by
  induction fuel generalizing fuel' with
  | zero => exact fun _ _ _ => Imitates.exhausted
  | succ fuel ih =>
    obtain ⟨fuel', rfl⟩ : ∃ n, fuel' = n + 1 := ⟨fuel' - 1, by omega⟩
    have ih := ih (Nat.le_of_succ_le_succ enough)
    intro context activity admitted
    cases activity with
    | native routine receiver args =>
      exact Native.imitates_run (fun name args => imitates_callFunction ih himage name args)
        (fun text => Imitates.adjust hS.toLasts (by intros; rfl) (by intros; rfl) (by intros; rfl))
        receiver args routine
    | frame body step =>
      obtain ⟨admits, admitted⟩ := admitted
      cases step with
      | returned value => exact Imitates.pure value
      | failed error => exact Imitates.throw error
      | running frame => exact ih context (.frame body _) ⟨admits, admits.step frame⟩
      | asking request frame =>
        exact Imitates.behind (hbefore request admitted) fun admitted =>
          (imitates_answer hS ih himage admitted).attempt.bind fun answer =>
            ih context (.frame body _) ⟨admits, body.admitted_resume request frame answer⟩

/-- Nothing is done before the requests of a routine that is run as it is. -/
theorem runWith_pure (image : Image) (fuel : Nat) :
    image.runWith (fun _ => Pure.pure ()) fuel = image.run fuel := by
  induction fuel with
  | zero => rfl
  | succ fuel ih =>
    funext context activity
    cases activity with
    | native => simp only [runWith, run, ih]
    | frame body step => cases step <;> simp only [runWith, run, ih, pure_bind]

/-- All routines are admitted where all call sites are. -/
theorem admitted_true (activity : Activity) : activity.Admitted fun _ => True := by
  cases activity with
  | native => trivial
  | frame body step =>
    refine ⟨fun _ _ => trivial, ?_⟩
    cases step with
    | asking request => cases request <;> trivial
    | _ => trivial

/-- A run that ends whatever is done before its requests ends so if nothing is done, and with more
fuel. -/
theorem run_of_runWith {before : Request → Run Unit}
    (hbefore : ∀ request memory outcome after, (before request).run memory = some (outcome, after) →
      outcome = .ok () ∧ after = memory)
    (enough : fuel ≤ fuel') {context : ContextId}
    (h : (image.runWith before fuel context activity).run memory = some (outcome, after)) :
    (image.run fuel' context activity).run memory = some (outcome, after) := by
  have imitates : RunnersImitate (fun _ => True) (Memory.Has fun _ => True)
      (image.runWith before fuel) (image.run fuel') := by
    rw [← runWith_pure]
    refine imitates_runWith (A := fun _ => True)
      (answersAlike_has (fun _ _ => trivial) fun _ _ => trivial) (fun _ _ _ _ _ => trivial) ?_ enough
    intro request _ memory sites _ outcome after ends
    obtain ⟨rfl, rfl⟩ := hbefore request memory outcome after ends
    exact ⟨rfl, rfl, trivial, rfl⟩
  obtain ⟨sites, ends, rfl, -⟩ := imitates context activity (admitted_true activity) memory
    memory.sites ⟨rfl, trivial⟩ outcome after h
  exact ends

/-- **With more fuel a routine ends as before.** -/
theorem run_mono (enough : fuel ≤ fuel') {context : ContextId}
    (h : (image.run fuel context activity).run memory = some (outcome, after)) :
    (image.run fuel' context activity).run memory = some (outcome, after) := by
  rw [← runWith_pure] at h
  refine run_of_runWith ?_ enough h
  rintro request memory outcome after ⟨⟩
  exact ⟨rfl, rfl⟩

end Image

end StackScript
