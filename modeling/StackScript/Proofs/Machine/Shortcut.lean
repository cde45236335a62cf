import StackScript.Proofs.Declaration.Lines
import StackScript.Proofs.Dispatch.Arguments
import StackScript.Proofs.Machine.Imitation
import StackScript.Proofs.Machine.Plain

/-!
# The shortcut past a call site

The compiler lays the arguments of a direct call out along the parameters of the method; the binder
of a call site plans the same from the formal parameters. Where there are enough arguments, and none
is changed by its conversion, both come to the same layout.

A program runs the same whatever one of its call sites with a name of its own has served, down to the
texts of its errors: the calls that the site makes do not depend on it.

A call of a method through a call site looks the method up in the type of the receiver, plans its
arguments and runs its body. Where the method and the layout are known beforehand, the body may be
called at once: what comes of it is the same, but for the site, which was not used.

## Main definitions

* `Parameter.Takes`: a parameter takes a value as it is
* `Parameter.Suit`: values suit parameters
* `SiteShape.Owns`: no other shape has the number of the shape
* `Memory.SameBut`, `Memory.SameButBoth`: memories that differ in one or two call sites at most

## Main results

* `Parameter.Suit.exists_plan`: what the binder makes of values that suit the parameters
* `Image.run_beside`, `Image.callRoutine_beside`: routines run the same
* `Image.invokeSite_named`: so do calls through two sites that name one method
* `Image.answer_call`: a call of a body is answered like the call through a site that finds it
-/

namespace StackScript

variable {memory : Memory}

/-! ## The arguments of bound calls -/

section Arguments

namespace Parameter

/-- The parameter takes the value as it is: the conversion to what it declares leaves it alone. -/
def Takes (param : Parameter) (v : Value) : Prop :=
  match param.type with
  | .context => True
  | .value hint => v.convert? hint.representation = some v

/-- There is a value for every parameter that takes one, and each parameter takes its value as it
is. Further values do not matter. -/
inductive Suit : List Parameter → List Value → Prop
  | nil (values) : Suit [] values
  | context {param : Parameter} {params values} : param.type = .context → Suit params values →
      Suit (param :: params) values
  | value {param : Parameter} {hint params v values} : param.type = .value hint → param.Takes v →
      Suit params values → Suit (param :: params) (v :: values)

variable {params : List Parameter} {values : List Value}

/-- The values that suit parameters, told by their number and one by one. -/
theorem suit_of_takes (enough : (params.filter (!·.isContext)).length ≤ values.length)
    (takes : ∀ p ∈ (params.filter (!·.isContext)).zip values, p.1.Takes p.2) :
    Suit params values := by
  induction params generalizing values with
  | nil => exact .nil _
  | cons param params ih =>
    cases htype : param.type with
    | context =>
      have context : param.isContext = true := by rw [isContext, htype]
      rw [List.filter_cons_of_neg (by simp [context])] at enough takes
      exact .context htype (ih enough takes)
    | value hint =>
      have value : param.isContext = false := by rw [isContext, htype]
      rw [List.filter_cons_of_pos (by simp [value])] at enough takes
      cases values with
      | nil => simp at enough
      | cons v values =>
        rw [List.zip_cons_cons, List.forall_mem_cons] at takes
        exact .value htype takes.1 (ih (Nat.le_of_succ_le_succ enough) takes.2)

/-- **Values that suit the parameters are laid out as they are.** The binder finds a plan for them,
and what the plan makes of them is laid out like the values themselves. -/
theorem Suit.exists_plan (h : Suit params values) (before : List Value) :
    ∃ plan, planFrom? (before ++ values).length before.length (params.map Parameter.formal) =
        some plan ∧
      ∀ method position, ∃ converted,
        Binding.convertFrom method (before ++ values) position plan = .ok converted ∧
        layArgs (params.map Parameter.formal) converted =
          layArgs (params.map Parameter.formal) values := by
  induction h generalizing before with
  | nil => exact ⟨[], rfl, fun _ _ => ⟨[], rfl, rfl⟩⟩
  | @context param params values htype _ ih =>
    obtain ⟨plan, planned, converts⟩ := ih before
    have formal : param.formal = ⟨Formal.contextName, .context⟩ := by rw [Parameter.formal, htype]
    refine ⟨.context :: plan, ?_, fun method position => ?_⟩
    · simp only [List.map_cons, formal, planFrom?, planned, Option.map_some]
    · obtain ⟨converted, hconverted, laid⟩ := converts method (position + 1)
      refine ⟨converted, hconverted, ?_⟩
      simp only [List.map_cons, formal, layArgs, laid]
  | @value param hint params v values htype takes _ ih =>
    obtain ⟨plan, planned, converts⟩ := ih (before ++ [v])
    have formal : param.formal = ⟨param.name, .supplied hint.representation⟩ := by
      rw [Parameter.formal, htype]
    rw [Takes, htype] at takes
    have next : (before ++ [v]).length = before.length + 1 := by simp
    rw [List.append_assoc, List.singleton_append, next] at planned
    refine ⟨.supplied before.length hint.representation :: plan, ?_, fun method position => ?_⟩
    · have supplied : before.length < (before ++ v :: values).length := by simp
      simp only [List.map_cons, formal, planFrom?, supplied, if_true, planned, Option.map_some]
    · obtain ⟨converted, hconverted, laid⟩ := converts method (position + 1)
      rw [List.append_assoc, List.singleton_append] at hconverted
      refine ⟨v :: converted, ?_, ?_⟩
      · simp only [Binding.convertFrom, List.getElem?_append_right (Nat.le_refl _), Nat.sub_self,
          List.getElem?_cons_zero, takes, hconverted]
        rfl
      · simp only [List.map_cons, formal, layArgs, List.headD_cons, List.tail_cons, laid]

end Parameter

end Arguments

/-- What an action does behind another one that has come to its end. -/
theorem Run.run_bind {α β : Type} {x : Run α} {f : α → Run β} {after : Memory} {a : α}
    (h : x.run memory = some (.ok a, after)) : (x >>= f).run memory = (f a).run after := by
  change ((x.run memory).bind _) = _
  rw [h]
  rfl

/-- Two outcomes that relate to a third one. -/
theorem rel_of_middle {α β γ : Type} {R : α → β → Prop} {R' : α → γ → Prop} {S : β → γ → Prop}
    {a : Option α} {b : Option β} {c : Option γ} (h : Option.Rel R a b) (h' : Option.Rel R' a c)
    (join : ∀ x y z, R x y → R' x z → S y z) : Option.Rel S b c := by
  cases h with
  | none =>
    cases h'
    exact .none
  | some r =>
    cases h' with
    | some r' => exact .some (join _ _ _ r r')

/-! ## Running beside one call site -/

section Beside

variable {types : TypeId → RuntimeType} {shape : SiteShape} {name : String}

/-- No other shape has the number of the shape. -/
def SiteShape.Owns (shape other : SiteShape) : Prop := other.id = shape.id → other = shape

/-- Calls on known receivers do not tell what the site has served. -/
theorem sitesAlike_beside (named : shape.Names name) :
    SitesAlike (fun other receiver => shape.Owns other ∧ receiver.Known types)
      (Registry.Beside types shape) where
  shape beside admitted := beside.shape_site admitted.1
  prepared beside admitted args := beside.prepared admitted.1 named (admitted.2.typed shape args)
  entered beside admitted := beside.entered admitted.1
  served beside admitted args := beside.served admitted.1 (admitted.2.typed shape args)

/-- Other call sites differ from those of a memory in one site. -/
def Memory.Beside (types : TypeId → RuntimeType) (shape : SiteShape) (memory : Memory)
    (sites : Registry) : Prop :=
  memory.sites.Beside types shape sites

/-- The memories are the same but for the call site of a number. -/
def Memory.SameBut (id : SiteId) (memory memory' : Memory) : Prop :=
  ∃ sites, memory.sites.SameBut id sites ∧ memory' = { memory with sites }

/-- The memories are the same but for the call sites of two numbers. -/
def Memory.SameButBoth (id other : SiteId) (memory memory' : Memory) : Prop :=
  ∃ middle : Memory, middle.SameBut id memory ∧ middle.SameBut other memory'

theorem Memory.SameBut.refl (id : SiteId) (memory : Memory) : memory.SameBut id memory :=
  ⟨memory.sites, ⟨rfl, rfl⟩, rfl⟩

namespace Image

variable {image : Image} {fuel : Nat} {context : ContextId} {activity : Activity} {memory : Memory}
  {sites : Registry}

/-- A routine does the same on known values, whatever the site has served. The receivers of its
calls are known as long as it runs, so nothing changes if that is checked before each of them. -/
theorem imitates_run_beside (himage : image.Known types) (owned : image.Admits shape.Owns)
    (named : shape.Names name) (routine : Activity.Agree types activity activity)
    (admitted : activity.Admitted shape.Owns) (known : memory.Agree types memory)
    (beside : memory.sites.Beside types shape sites) :
    ImitatesAt (Memory.Beside types shape) memory sites (image.run fuel context activity)
      (image.run fuel context activity) := by
  let checked : Request → Run Unit := fun request =>
    .ensure fun _ => ∃ asked : Request, asked.Mirrors (.known types) request
  have passes (request : Request) (own : request.Admitted fun other _ => shape.Owns other)
      (memory : Memory) (outcome : Except DispatchError Unit) (after : Memory)
      (ends : (checked request).run memory = some (outcome, after)) :
      outcome = .ok () ∧ after = memory ∧
        request.Admitted fun other receiver => shape.Owns other ∧ receiver.Known types := by
    obtain ⟨done, kept, holds⟩ := Run.run_ensure.mp ends
    refine ⟨done, kept, ?_⟩
    obtain ⟨asked, requests⟩ := holds
    cases requests with
    | callSite _ receivers _ =>
      obtain ⟨rfl, receiver_known⟩ := valuesAgree_iff.mp receivers
      exact ⟨own, receiver_known⟩
    | _ => trivial
  intro outcome after ends
  have goesOn (asked request : Request) (requests : asked.Mirrors (.known types) request) :
      RunsAgree types (fun _ _ => True) (pure ()) (checked request) :=
    .ensure fun _ _ _ => ⟨asked, requests⟩
  -- The run without the check agrees with the one that makes it, so the latter ends alike.
  have agrees := agree_runWith himage goesOn fuel context activity activity routine memory memory
    known
  rw [ends] at agrees
  cases guarded : (image.runWith checked fuel context activity).run memory with
  | none =>
    rw [guarded] at agrees
    cases agrees
  | some r =>
    obtain ⟨outcome', after'⟩ := r
    -- Behind the check receivers are known, which is what the step of an imitation asks for.
    have same := run_of_runWith (fun request memory outcome after ends => by
      obtain ⟨done, kept, -⟩ := Run.run_ensure.mp ends
      exact ⟨done, kept⟩) (Nat.le_refl fuel) guarded
    obtain ⟨rfl, rfl⟩ := Prod.mk.inj (Option.some.inj (ends.symm.trans same))
    rw [← runWith_pure image fuel]
    exact imitates_runWith (sitesAlike_beside named).answersAlike owned
      (fun request own memory sites _ outcome after ends => by
        obtain ⟨done, kept, known⟩ := passes request own memory outcome after ends
        exact ⟨done, kept, known, rfl⟩)
      (Nat.le_refl fuel) context activity admitted memory sites beside _ _ guarded

/-- **A routine runs the same** on known values, whatever a site with a name of its own has served. -/
theorem run_beside (fuel : Nat) (context : ContextId) (himage : image.Known types)
    (owned : image.Admits shape.Owns)
    (named : shape.Names name) (routine : Activity.Agree types activity activity)
    (admitted : activity.Admitted shape.Owns) (known : memory.Agree types memory)
    (known' : Memory.Agree types { memory with sites } { memory with sites })
    (beside : memory.sites.Beside types shape sites) :
    Option.Rel (fun x y => y.1 = x.1 ∧ x.2.SameBut shape.id y.2)
      ((image.run fuel context activity).run memory)
      ((image.run fuel context activity).run { memory with sites }) := by
  let running := image.run fuel context activity
  have there : ImitatesAt (Memory.Beside types shape) memory sites running running :=
    imitates_run_beside himage owned named routine admitted known beside
  have back : ImitatesAt (Memory.Beside types shape) { memory with sites } memory.sites running
      running :=
    imitates_run_beside himage owned named routine admitted known' beside.symm
  cases first : (image.run fuel context activity).run memory with
  | some r =>
    obtain ⟨others, second, beside'⟩ := there r.1 r.2 first
    rw [second]
    exact .some ⟨rfl, others, beside'.toSameBut, rfl⟩
  | none =>
    cases second : (image.run fuel context activity).run { memory with sites } with
    | none => exact .none
    | some r =>
      obtain ⟨others, again, -⟩ := back r.1 r.2 second
      rw [first] at again
      cases again

/-- So does a routine that is called. -/
theorem callRoutine_beside (fuel : Nat) (context : ContextId) (himage : image.Known types)
    (owned : image.Admits shape.Owns) (named : shape.Names name) (routine : RoutineRef)
    {receiver : Option Value} {args : List Value}
    (receivers : Option.Rel (ValuesAgree types) receiver receiver)
    (arguments : ValuesMirror (.known types) args args) (known : memory.Agree types memory)
    (known' : Memory.Agree types { memory with sites } { memory with sites })
    (beside : memory.sites.Beside types shape sites) :
    Option.Rel (fun x y => y.1 = x.1 ∧ x.2.SameBut shape.id y.2)
      ((image.callRoutine (image.run fuel) context routine receiver args).run memory)
      ((image.callRoutine (image.run fuel) context routine receiver args).run
        { memory with sites }) := by
  cases routine with
  | compiled key formals =>
    rw [callRoutine]
    unfold bodyOf
    cases hbody : image.body? key with
    | none => exact .some ⟨rfl, sites, beside.toSameBut, rfl⟩
    | some body =>
      exact run_beside fuel context himage owned named
        (Activity.agree_ofBody body receivers (.cons .context (mirrors_layArgs formals arguments)))
        ⟨owned _ _ hbody, trivial⟩ known known' beside
  | native index =>
    have read (m : Memory) : (getThe Memory : Run Memory).run m = some (.ok m, m) := rfl
    rw [callRoutine, Run.run_bind (read memory), Run.run_bind (read { memory with sites })]
    dsimp only
    cases hnative : memory.natives[index]? with
    | none => exact .some ⟨rfl, sites, beside.toSameBut, rfl⟩
    | some native =>
      exact run_beside fuel context himage owned named
        (.native (known.routines native (Array.mem_of_getElem? hnative))
          (rel_getD receivers .null) arguments) trivial known known' beside

end Image

end Beside

variable {types : TypeId → RuntimeType} {shape : SiteShape} {name : String}

/-- A site with a name of its own calls the method that the look-up finds, with what the binder makes of
the values. -/
theorem CallSite.Reached.exists_prepared {site : CallSite} (h : site.Reached types)
    (named : site.shape.Names name) {ref : ObjectRef}
    (typed : types ref.type.id = ref.type) {method : Method}
    (found : ref.type.findMethod? name = some method) {params : List Parameter}
    (formals : method.formals = params.map Parameter.formal) {values : List Value}
    (suit : Parameter.Suit params values) :
    ∃ converted, (site.prepare (.object ref) values).1 = .ok ⟨method, ref, converted⟩ ∧
      layArgs method.formals converted = layArgs method.formals values := by
  obtain ⟨plan, planned, converts⟩ := suit.exists_plan []
  obtain ⟨converted, hconverted, laid⟩ := converts method.name 1
  rw [List.nil_append, List.length_nil, ← formals] at planned
  rw [List.nil_append] at hconverted
  rw [← formals] at laid
  refine ⟨converted, ?_, laid⟩
  rw [h.prepare_named named ((Value.known_object.mpr typed).typed _ _)]
  have bound : resolve ref.type name values.length = .ok ⟨method, plan⟩ := by
    simp only [resolve, found, planned]
  simp only [SiteShape.receiverOf, Bind.bind, Except.bind, bound, Binding.convert, hconverted]
  rfl

/-- The memory behind a call through a site differs in the site. -/
theorem Memory.beside_behindCall (known : memory.Agree types memory)
    (serves : memory.sites.Serves types shape) {receiver : Value} (typed : receiver.Known types)
    (args : List Value) :
    memory.sites.Beside types shape (memory.behindCall shape receiver args).sites ∧
      (memory.behindCall shape receiver args).Agree types
        (memory.behindCall shape receiver args) := by
  obtain ⟨shaped, reached⟩ := serves.site
  let call : SiteCall := ⟨receiver, args⟩
  have hcall : call.Typed types (memory.sites.site shape).1.shape := typed.typed _ args
  have same : ((memory.sites.site shape).1.serve call).shape = shape :=
    (CallSite.shape_serve _ call).trans shaped
  have served := reached.serve hcall
  refine ⟨(Registry.Beside.of_site serves).trans
    (.of_update (serves.entered fun _ => rfl) same served), ?_⟩
  have entered := known.withSites (known.sites.site shape).2
  exact entered.withSites (entered.sites.update ⟨rfl, served, served⟩)

namespace Image

variable {image : Image} {fuel : Nat} {context : ContextId} {memory : Memory} {args : List Value}
    {ref : ObjectRef}

/-- A call through a site runs the routine that the site binds. The registry has another state of
the site from then on. -/
theorem exists_answer_callSite (image : Image) (run : Runner) (context : ContextId)
    (plain : .unpacked ∉ shape.args) (known : memory.Agree types memory)
    (serves : memory.sites.Serves types shape) {receiver : Value} (typed : receiver.Known types)
    {invocation : Invocation}
    (prepared : ((memory.sites.site shape).1.prepare receiver args).1 = .ok invocation) :
    ∃ sites, memory.sites.Beside types shape sites ∧
      Memory.Agree types { memory with sites } { memory with sites } ∧
      (image.answer run context (.callSite shape receiver args)).run memory =
        (image.callRoutine run context invocation.method.routine
          (some (.object invocation.receiver)) invocation.args).run { memory with sites } := by
  obtain ⟨beside, known'⟩ := Memory.beside_behindCall known serves typed args
  refine ⟨(memory.behindCall shape receiver args).sites, beside, known', ?_⟩
  have flat : (flattenArgs shape args).run memory = some (.ok args, memory.entered shape) := by
    have kept : (memory.sites.site shape).1.flatten args = .ok args := by
      rw [CallSite.flatten, serves.site.1, if_neg (by simpa using plain)]
    unfold flattenArgs
    rw [Run.run_bind (a := memory) rfl]
    dsimp only
    rw [Run.run_bind (a := ()) rfl, kept]
    rfl
  rw [answer, Run.run_bind flat]
  refine (image.run_invokeSite_entered run context memory shape receiver args).trans ?_
  rw [run_invokeSite, prepared]
  rfl

/-- **Calls through two sites that name one method are the same**, on known values: both end alike,
and but for what the two sites have served, in the same memory. -/
theorem invokeSite_named {other : SiteShape} (himage : image.Known types)
    (owned : image.Admits shape.Owns) (owned' : image.Admits other.Owns) (named : shape.Names name)
    (named' : other.Names name) (known : memory.Agree types memory)
    (serves : memory.sites.Serves types shape) (serves' : memory.sites.Serves types other)
    (typed : types ref.type.id = ref.type) (hargs : ∀ v ∈ args, v.Known types) :
    Option.Rel (fun x y => y.1 = x.1 ∧ x.2.SameButBoth shape.id other.id y.2)
      ((image.invokeSite (image.run fuel) context shape (.object ref) args).run memory)
      ((image.invokeSite (image.run fuel) context other (.object ref) args).run memory) := by
  have object : (Value.object ref).Known types := .object typed
  obtain ⟨shaped, reached⟩ := serves.site
  obtain ⟨shaped', reached'⟩ := serves'.site
  obtain ⟨beside, after⟩ := Memory.beside_behindCall known serves object args
  obtain ⟨beside', after'⟩ := Memory.beside_behindCall known serves' object args
  -- Both sites come to one method, as it is the name that decides.
  have same : ((memory.sites.site other).1.prepare (.object ref) args).1 =
      ((memory.sites.site shape).1.prepare (.object ref) args).1 := by
    rw [reached.prepare_named (by rwa [shaped]) (object.typed _ _),
      reached'.prepare_named (by rwa [shaped']) (object.typed _ _)]
    rfl
  have prepares := CallSite.prepare_of_mirrors (fun _ => id) reached reached rfl object.mirrors
    (valuesMirror_known hargs)
  have first := image.run_invokeSite (image.run fuel) context memory shape (.object ref) args
  have second := image.run_invokeSite (image.run fuel) context memory other (.object ref) args
  rw [same] at second
  change Option.Rel _ ((image.invokeSite (image.run fuel) context shape (.object ref) args).run.run
    memory) ((image.invokeSite (image.run fuel) context other (.object ref) args).run.run memory)
  rw [first, second]
  cases prepared : ((memory.sites.site shape).1.prepare (.object ref) args).1 with
  | error e =>
    exact .some ⟨rfl, memory, ⟨_, beside.toSameBut, rfl⟩, ⟨_, beside'.toSameBut, rfl⟩⟩
  | ok invocation =>
    rw [prepared] at prepares
    cases prepares with
    | ok invocations =>
      have there := callRoutine_beside fuel context himage owned named invocation.method.routine
        (.some (.object invocations.receiver)) invocations.args known after beside
      have there' := callRoutine_beside fuel context himage owned' named' invocation.method.routine
        (.some (.object invocations.receiver)) invocations.args known after' beside'
      exact rel_of_middle there there' fun middle x y same same' =>
        ⟨same'.1.trans same.1.symm, middle.2, same.2, same'.2⟩

/-- **A call of a body is answered like the call through a site that finds the body**, on known
values that the parameters of the method take as they are. Both end alike, in memories that differ
in the site alone; or both need more fuel. -/
theorem answer_call (himage : image.Known types) (owned : image.Admits shape.Owns)
    (named : shape.Names name) (plain : .unpacked ∉ shape.args) (known : memory.Agree types memory)
    (serves : memory.sites.Serves types shape) (typed : types ref.type.id = ref.type)
    {declaring : TypeEntry} {method : Routine}
    (found : ref.type.findMethod? name = some (Table.objectMethod declaring method))
    {values : List Value} (hvalues : ∀ v ∈ values, v.Known types)
    (suit : Parameter.Suit method.params values) {args : List FrameArg}
    (laid : args.map FrameArg.plain =
      (layArgs (method.params.map Parameter.formal) values).map FrameArg.plain) :
    Option.Rel (fun x y => y.1 = x.1 ∧ x.2.SameBut shape.id y.2)
      ((image.answer (image.run fuel) context
        (.call (.method declaring.name method.name) (some (.object ref)) (.context :: args))).run
          memory)
      ((image.answer (image.run fuel) context (.callSite shape (.object ref) values)).run memory) := by
  obtain ⟨shaped, reached⟩ := serves.site
  obtain ⟨converted, prepared, same⟩ :=
    reached.exists_prepared (by rwa [shaped]) typed found rfl suit
  obtain ⟨sites, beside, known', answered⟩ :=
    exists_answer_callSite image (image.run fuel) context plain known serves (.object typed) prepared
  let key := (BodyName.method declaring.name method.name).key
  let formals := method.params.map Parameter.formal
  -- The method on the values as they are, in the two memories.
  have runs := callRoutine_beside fuel context himage owned named (.compiled key formals)
    (.some (Value.Known.object typed).mirrors) (valuesMirror_known hvalues) known known' beside
  -- The site converts the values first, which changes nothing for parameters that they suit.
  have converts : image.callRoutine (image.run fuel) context (.compiled key formals)
      (some (.object ref)) converted =
      image.callRoutine (image.run fuel) context (.compiled key formals) (some (.object ref))
        values := by
    simp only [callRoutine, show layArgs formals converted = layArgs formals values from same]
  -- The call of the body passes arguments without contexts, which no body can tell.
  have calls : image.answer (image.run fuel) context
      (.call (.method declaring.name method.name) (some (.object ref)) (.context :: args)) =
      image.callRoutine (image.run fuel) context (.compiled key formals) (some (.object ref))
        values := by
    simp only [answer, callRoutine]
    refine bind_congr fun body => ?_
    rw [← run_ofBody_plain, List.map_cons, laid, ← List.map_cons, run_ofBody_plain]
  rw [answered, calls]
  change Option.Rel _ _ ((image.callRoutine (image.run fuel) context (.compiled key formals)
    (some (.object ref)) converted).run _)
  rw [converts]
  exact runs

end Image

end StackScript
