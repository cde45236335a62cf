import Mathlib
import StackScript.Machine.Run
import StackScript.Proofs.Dispatch.Beside
import StackScript.Proofs.Text.Case

/-!
# Arguments of late-bound calls

A late-bound call hands its arguments to the parameters of the method that take a value, in order.
The arguments must be enough for these parameters, and each must have a conversion; parameters that
take the context use up no argument, but count where a position is reported, and arguments that are
left over are ignored. A plan that is kept for later calls says the same as the parameters
themselves, for every call with as many arguments.

An operand of a call stands for one argument, or, unpacked, for the values of an array.

## Main definitions

* `passings`: the parameters that take a value, each with its argument
* `Method.receive`: what the method receives for a list of arguments
* `CallOperand`, `spreadAll`: the operands of a call, and the arguments that they stand for

## Main results

* `planFrom?_isSome_iff`, `lt_of_mem_planFrom?`: when there is a plan, and what it reads
* `CallSite.Reached.prepare_found`: a site that has served calls hands over what the method receives
* `Image.invokeSite_receives`: so does the reference machine, and without a conversion nothing is
  called
* `Image.run_answer_callSite`: a call with operands is a call with the arguments they stand for
-/

namespace StackScript

/-! ## What a method receives -/

/-- An argument on its way to a parameter. -/
structure Passing where
  /-- The position of the parameter among all parameters, the first one 1. -/
  position : Nat
  representation : Representation
  value : Value

namespace Passing

/-- The argument as the parameter receives it. -/
def converted? (passing : Passing) : Option Value := passing.value.convert? passing.representation

/-- The error of an argument without a conversion. -/
def error (method : String) (passing : Passing) : DispatchError :=
  .badArgument method passing.position passing.representation passing.value.kind

end Passing

/-- The parameters that take a value, each with its position; the first of the list has the position
that is given. -/
def valueParameters (position : Nat) (formals : List Formal) : List (Nat × Representation) :=
  (formals.zipIdx position).filterMap fun (formal, position) =>
    match formal.kind with
    | .context => none
    | .supplied representation => some (position, representation)

/-- The arguments on their way to the parameters that take a value, in order. -/
def passings (position : Nat) (formals : List Formal) (supplied : List Value) : List Passing :=
  (valueParameters position formals).zipWith
    (fun (position, representation) value => ⟨position, representation, value⟩) supplied

/-- The arguments, each converted; the first one that has no conversion is an error. -/
def convertAll (method : String) (passings : List Passing) : Except DispatchError (List Value) :=
  match passings.find? (·.converted?.isNone) with
  | some passing => .error (passing.error method)
  | none => .ok (passings.filterMap Passing.converted?)

namespace Method

/-- What the method receives for a list of arguments. -/
def receive (method : Method) (supplied : List Value) : Except DispatchError (List Value) :=
  if supplied.length < method.suppliedCount then
    .error (.tooFewArguments (method.declaringType ++ "::" ++ method.name) supplied.length
      method.suppliedCount)
  else convertAll method.name (passings 1 method.formals supplied)

end Method

/-! ## Plans -/

section Plans

variable {argc next position : Nat} {formals : List Formal} {plan : List ArgSource}
    {supplied : List Value} {name : String} {formal : Formal} {representation : Representation}
    {rest : List Formal}

theorem passings_context (kind : formal.kind = .context) :
    passings position (formal :: rest) supplied = passings (position + 1) rest supplied := by
  simp [passings, valueParameters, List.zipIdx_cons, kind]

theorem passings_supplied {value : Value} {others : List Value}
    (kind : formal.kind = .supplied representation) :
    passings position (formal :: rest) (value :: others) =
      ⟨position, representation, value⟩ :: passings (position + 1) rest others := by
  simp [passings, valueParameters, List.zipIdx_cons, kind]

theorem convertAll_cons (passing : Passing) (rest : List Passing) :
    convertAll name (passing :: rest) =
      match passing.converted? with
      | none => .error (passing.error name)
      | some converted => (convertAll name rest).map (converted :: ·) := by
  unfold convertAll
  rw [List.find?_cons, List.filterMap_cons]
  cases passing.converted? with
  | none => rfl
  | some converted => cases rest.find? (·.converted?.isNone) <;> rfl

/-- There is a plan unless there are too few arguments. -/
theorem planFrom?_isSome_iff (le : next ≤ argc) :
    (planFrom? argc next formals).isSome ↔ next + formals.countP (!·.isContext) ≤ argc := by
  induction formals generalizing next with
  | nil => simpa [planFrom?] using le
  | cons formal rest ih =>
    rw [planFrom?, List.countP_cons]
    cases kind : formal.kind with
    | context => simp [Formal.isContext, kind, ih le]
    | supplied representation =>
      by_cases enough : next < argc
      · simp [Formal.isContext, kind, enough, ih (show next + 1 ≤ argc by omega)]
        omega
      · simp [Formal.isContext, kind, enough]
        omega

/-- A plan reads no argument behind the last one. -/
theorem lt_of_mem_planFrom? (h : planFrom? argc next formals = some plan) {index : Nat}
    (mem : .supplied index representation ∈ plan) : index < argc := by
  induction formals generalizing next plan with
  | nil =>
    cases h
    cases mem
  | cons formal rest ih =>
    rw [planFrom?] at h
    split at h
    · obtain ⟨others, planned, rfl⟩ := Option.map_eq_some_iff.1 h
      exact ih planned (by simpa using mem)
    · split at h
      case isTrue enough =>
        obtain ⟨others, planned, rfl⟩ := Option.map_eq_some_iff.1 h
        rcases List.mem_cons.1 mem with same | mem
        · cases same
          exact enough
        · exact ih planned mem
      case isFalse => cases h

/-- **A plan hands over what the parameters ask for.** -/
theorem convertFrom_eq (h : planFrom? supplied.length next formals = some plan) :
    Binding.convertFrom name supplied position plan =
      convertAll name (passings position formals (supplied.drop next)) := by
  induction formals generalizing next position plan with
  | nil =>
    cases h
    rfl
  | cons formal rest ih =>
    rw [planFrom?] at h
    split at h
    case h_1 kind =>
      obtain ⟨others, planned, rfl⟩ := Option.map_eq_some_iff.1 h
      rw [Binding.convertFrom, ih planned, passings_context kind]
    case h_2 representation kind =>
      split at h
      case isFalse => cases h
      case isTrue enough =>
        obtain ⟨others, planned, rfl⟩ := Option.map_eq_some_iff.1 h
        rw [List.drop_eq_getElem_cons enough, passings_supplied kind, convertAll_cons,
          Binding.convertFrom, List.getElem?_eq_getElem enough]
        simp only [ih planned, Passing.converted?]
        cases supplied[next].convert? representation with
        | none => rfl
        | some converted =>
          cases convertAll name (passings (position + 1) rest (supplied.drop (next + 1))) <;> rfl

end Plans

/-! ## Operands -/

/-- An operand of a call. -/
structure CallOperand where
  shape : ArgShape
  value : Value

namespace CallOperand

/-- The arguments that the operand stands for: it is one itself, or its values are, in order and
without their keys, if it is unpacked. None if what is unpacked is no array. -/
def args? (operand : CallOperand) : Option (List Value) :=
  match operand.shape with
  | .value => some [operand.value]
  | .unpacked => operand.value.entries?.map (·.map (·.2))

end CallOperand

/-- The arguments that operands stand for, one behind the other. It is an error if what is unpacked
is no array; the first such operand counts. -/
def spreadAll (operands : List CallOperand) : Except DispatchError (List Value) :=
  match operands.find? (·.args?.isNone) with
  | some operand => .error (.failed (.notUnpackable operand.value.kind))
  | none => .ok (operands.filterMap CallOperand.args?).flatten

section Operands

variable {shapes : List ArgShape} {values : List Value}

theorem spreadAll_cons (operand : CallOperand) (rest : List CallOperand) :
    spreadAll (operand :: rest) =
      match operand.args? with
      | none => .error (.failed (.notUnpackable operand.value.kind))
      | some args => (spreadAll rest).map (args ++ ·) := by
  unfold spreadAll
  rw [List.find?_cons, List.filterMap_cons]
  cases operand.args? with
  | none => rfl
  | some args => cases rest.find? (·.args?.isNone) <;> rfl

/-- An operand that is not unpacked is an argument. -/
theorem spreadAll_value (value : Value) (rest : List CallOperand) :
    spreadAll (⟨.value, value⟩ :: rest) = (spreadAll rest).map (value :: ·) := by
  rw [spreadAll_cons]
  rfl

/-- What a site makes of the values that were pushed. -/
theorem spread_eq (length : values.length = shapes.length) :
    CallSite.spread values shapes = spreadAll (shapes.zipWith CallOperand.mk values) := by
  induction values generalizing shapes with
  | nil =>
    obtain rfl := List.length_eq_zero_iff.1 length.symm
    rfl
  | cons value values ih =>
    cases shapes with
    | nil => cases length
    | cons shape shapes =>
      have ih := ih (Nat.succ.inj length)
      rw [List.zipWith_cons_cons]
      cases shape with
      | value =>
        rw [CallSite.spread, ih, spreadAll_value]
        cases spreadAll (shapes.zipWith CallOperand.mk values) <;> rfl
      | unpacked =>
        rw [CallSite.spread, ih, spreadAll_cons, CallOperand.args?]
        cases value.entries? with
        | none => rfl
        | some entries => cases spreadAll (shapes.zipWith CallOperand.mk values) <;> rfl

/-- Operands of which none is unpacked are the arguments. -/
theorem spreadAll_plain (length : values.length = shapes.length) (plain : .unpacked ∉ shapes) :
    spreadAll (shapes.zipWith CallOperand.mk values) = .ok values := by
  induction values generalizing shapes with
  | nil =>
    obtain rfl := List.length_eq_zero_iff.1 length.symm
    rfl
  | cons value values ih =>
    cases shapes with
    | nil => cases length
    | cons shape shapes =>
      rw [List.mem_cons, not_or] at plain
      obtain ⟨head, rest⟩ := plain
      cases shape with
      | value =>
        rw [List.zipWith_cons_cons, spreadAll_value, ih (Nat.succ.inj length) rest]
        rfl
      | unpacked => exact (head rfl).elim

/-- **What a site makes of the values that were pushed** are the arguments that they stand for. -/
theorem CallSite.flatten_eq {site : CallSite} (length : values.length = site.shape.args.length) :
    site.flatten values = spreadAll (site.shape.args.zipWith CallOperand.mk values) := by
  unfold CallSite.flatten
  split
  · exact spread_eq length
  · next plain => exact (spreadAll_plain length (by simpa using plain)).symm

end Operands

/-! ## Calls through a site -/

section Sites

variable {types : TypeId → RuntimeType} {site : CallSite} {ref : ObjectRef} {name : String}
    {method : Method} {args supplied : List Value} (image : Image)

/-- What the look-up of a method finds, handed the arguments that were counted. -/
theorem resolve_receive (found : ref.type.findMethod? name = some method) (supplied : List Value) :
    (do
      let binding ← resolve ref.type name supplied.length
      return (⟨binding.method, ref, ← binding.convert supplied⟩ : Invocation)) =
      (method.receive supplied).map fun converted => ⟨method, ref, converted⟩ := by
  have enough : (planFrom? supplied.length 0 method.formals).isSome ↔
      0 + method.formals.countP (!·.isContext) ≤ supplied.length :=
    planFrom?_isSome_iff (Nat.zero_le supplied.length)
  rw [Nat.zero_add] at enough
  unfold resolve Method.receive Method.suppliedCount
  rw [found]
  dsimp only
  cases planned : planFrom? supplied.length 0 method.formals with
  | none =>
    rw [planned] at enough
    rw [if_pos (by simpa using enough)]
    rfl
  | some plan =>
    rw [planned] at enough
    have converted : Binding.convertFrom method.name supplied 1 plan =
        convertAll method.name (passings 1 method.formals (supplied.drop 0)) :=
      convertFrom_eq planned
    rw [List.drop_zero] at converted
    rw [if_neg (by simpa using enough), ← converted]
    show (do
      return (⟨method, ref, ← Binding.convertFrom method.name supplied 1 plan⟩ : Invocation)) = _
    cases Binding.convertFrom method.name supplied 1 plan <;> rfl

namespace CallSite

/-- A name that is found is bound as the look-up says, whatever the site has kept. -/
theorem Reached.bind_found (h : site.Reached types)
    (selected : site.shape.selectName args = .ok (name, supplied))
    (typed : types ref.type.id = ref.type) (found : ref.type.findMethod? name = some method) :
    (site.bind ref.type name supplied.length).1 = resolve ref.type name supplied.length := by
  have looked : site.shape.lookup? ⟨.object ref, args⟩ = some ⟨ref.type, name, supplied.length⟩ := by
    simp only [SiteShape.lookup?, SiteShape.receiverOf, selected]
  have alike := h.bind_alike looked typed
  -- Errors that are alike and differ are about a method that is not there.
  have present : ∀ type called, resolve ref.type name supplied.length ≠
      .error (.undefinedMethod type called) := by
    intro type called
    rw [resolve, found]
    dsimp only
    split <;> simp
  cases outcome : resolve ref.type name supplied.length with
  | ok binding =>
    simp only [Lookup.outcome, outcome] at alike
    generalize (site.bind ref.type name supplied.length).1 = bound at alike
    cases alike
    rfl
  | error e =>
    simp only [Lookup.outcome, outcome] at alike
    generalize (site.bind ref.type name supplied.length).1 = bound at alike
    cases alike with
    | error same =>
      cases same with
      | refl => rfl
      | undefinedMethod => exact absurd outcome (present _ _)

/-- **A site that has served calls hands over what the method receives.** -/
theorem Reached.prepare_found (h : site.Reached types)
    (selected : site.shape.selectName args = .ok (name, supplied))
    (typed : types ref.type.id = ref.type) (found : ref.type.findMethod? name = some method) :
    (site.prepare (.object ref) args).1 =
      (method.receive supplied).map fun converted => ⟨method, ref, converted⟩ := by
  simp only [prepare, SiteShape.receiverOf, selected, h.bind_found selected typed found]
  exact resolve_receive found supplied

/-- What a site keeps reads no argument behind those that its guard counts. -/
theorem Reached.lt_argc (h : site.Reached types) {entry : CacheEntry} (mem : entry ∈ site.entries)
    {binding : Binding} (kept : entry.outcome = .ok binding) {index : Nat}
    {representation : Representation} (reads : .supplied index representation ∈ binding.plan) :
    index < entry.guard.argc := by
  obtain ⟨past, coherent, -⟩ := h.coherent
  obtain ⟨l, -, guard, outcome⟩ := coherent.found entry mem
  rw [kept, Lookup.outcome, resolve] at outcome
  rw [← guard]
  split at outcome
  · cases outcome
  · split at outcome
    · next planned =>
      cases outcome
      exact lt_of_mem_planFrom? planned reads
    · cases outcome

end CallSite

/-- The memory behind a call through a site: the site has served one call more. -/
def Memory.behindCall (memory : Memory) (shape : SiteShape) (receiver : Value)
    (args : List Value) : Memory :=
  let (site, sites) := memory.sites.site shape
  { memory with sites := sites.update (site.prepare receiver args).2 }

/-- A call through a site calls the method that the site has prepared, if it has prepared one. -/
theorem Image.run_invokeSite (run : Runner) (context : ContextId) (memory : Memory)
    (shape : SiteShape) (receiver : Value) (args : List Value) :
    (image.invokeSite run context shape receiver args).run.run memory =
      match ((memory.sites.site shape).1.prepare receiver args).1 with
      | .error e => some (.error e, memory.behindCall shape receiver args)
      | .ok invocation =>
        (image.callRoutine run context invocation.method.routine
          (some (.object invocation.receiver)) invocation.args).run.run
          (memory.behindCall shape receiver args) := by
  have steps : (image.invokeSite run context shape receiver args).run.run memory =
      ((do
        let invocation ← MonadExcept.ofExcept ((memory.sites.site shape).1.prepare receiver args).1
        image.callRoutine run context invocation.method.routine
          (some (.object invocation.receiver)) invocation.args : Run Value).run.run
        (memory.behindCall shape receiver args)) := rfl
  rw [steps]
  cases ((memory.sites.site shape).1.prepare receiver args).1 <;> rfl

/-- The memory once the site of a shape is there. -/
def Memory.entered (memory : Memory) (shape : SiteShape) : Memory :=
  { memory with sites := (memory.sites.site shape).2 }

/-- A call does not tell whether its site was there before. -/
theorem Image.run_invokeSite_entered (run : Runner) (context : ContextId) (memory : Memory)
    (shape : SiteShape) (receiver : Value) (args : List Value) :
    (image.invokeSite run context shape receiver args).run.run (memory.entered shape) =
      (image.invokeSite run context shape receiver args).run.run memory := by
  simp only [run_invokeSite, Memory.behindCall, Memory.entered, Registry.site_site]

/-- **A call with operands** is a call with the arguments that they stand for, unless an operand
that is unpacked is no array. Then nothing is called. -/
theorem Image.run_answer_callSite (run : Runner) (context : ContextId) {memory : Memory}
    {shape : SiteShape} {pushed : List Value} (length : pushed.length = shape.args.length)
    (own : ∀ site, memory.sites.get? shape.id = some site → site.shape = shape) (receiver : Value) :
    (image.answer run context (.callSite shape receiver pushed)).run.run memory =
      match spreadAll (shape.args.zipWith CallOperand.mk pushed) with
      | .error e => some (.error e, memory.entered shape)
      | .ok passed => (image.invokeSite run context shape receiver passed).run.run memory := by
  have shaped : (memory.sites.site shape).1.shape = shape := by
    obtain ⟨found, -⟩ | ⟨-, new, -⟩ := memory.sites.site_cases shape
    · exact own _ found
    · rw [new]
      rfl
  have steps : (image.answer run context (.callSite shape receiver pushed)).run.run memory =
      ((do
        let passed ← MonadExcept.ofExcept ((memory.sites.site shape).1.flatten pushed)
        image.invokeSite run context shape receiver passed : Run Value).run.run
        (memory.entered shape)) := rfl
  rw [steps, CallSite.flatten_eq (shaped.symm ▸ length), shaped]
  cases spreadAll (shape.args.zipWith CallOperand.mk pushed) with
  | error => rfl
  | ok passed => exact image.run_invokeSite_entered run context memory shape receiver passed

/-- **The arguments of a late-bound call.** Whatever the site has served before, the method that is
found gets what it receives for the arguments, once; if it receives an error, that is the outcome of
the call, and nothing is run. A binding that the site keeps reads no argument behind those that its
guard counts. -/
theorem Image.invokeSite_receives (image : Image) (run : Runner) (context : ContextId)
    {memory : Memory} {shape : SiteShape} (serves : memory.sites.Serves types shape)
    (typed : types ref.type.id = ref.type)
    (selected : shape.selectName args = .ok (name, supplied))
    (found : ref.type.findMethod? name = some method) :
    ((image.invokeSite run context shape (.object ref) args).run.run memory =
      match method.receive supplied with
      | .error e => some (.error e, memory.behindCall shape (.object ref) args)
      | .ok converted =>
        (image.callRoutine run context method.routine (some (.object ref)) converted).run.run
          (memory.behindCall shape (.object ref) args)) ∧
    ∀ entry ∈ (memory.sites.site shape).1.entries, ∀ binding, entry.outcome = .ok binding →
      ∀ index representation, .supplied index representation ∈ binding.plan →
        index < entry.guard.argc := by
  obtain ⟨shaped, reached⟩ := serves.site
  refine ⟨?_, fun entry mem binding kept index representation reads =>
    reached.lt_argc mem kept reads⟩
  rw [run_invokeSite, reached.prepare_found (shaped.symm ▸ selected) typed found]
  cases method.receive supplied <;> rfl

end Sites

/-! ### A method with the context between its values -/

section Interleaved

/-- A method that takes the context, an integer, the context once more, and a text. -/
def interleavedMethod : Method where
  name := "mix"
  declaringType := "Mixer"
  formals := [⟨"outer", .context⟩, ⟨"count", .supplied .long⟩, ⟨"inner", .context⟩,
    ⟨"label", .supplied .string⟩]
  routine := .native 0

/-- The type that declares the method. -/
def interleavedType : RuntimeType := .extend none 0 "Mixer" [interleavedMethod]

/-- A site that computes the name of what it calls. -/
def interleavedShape : SiteShape := ⟨0, .computed, [.value, .value, .value, .value]⟩

/-- The site has called the method before, with other arguments. -/
def interleavedMemory : Memory :=
  let earlier : SiteCall :=
    ⟨.object ⟨0, interleavedType⟩, [.string "mix", .long 7, .string "seven"]⟩
  { Memory.empty 1 with
    sites := ⟨1, [(CallSite.new interleavedShape 1).after [earlier]]⟩
    natives := #[.arguments] }

/-- The arguments are converted in order, and the one left over is ignored: the routine of the method
returns those that it is run with. -/
theorem Image.invokeSite_receives_interleaved :
    let ref : ObjectRef := ⟨0, interleavedType⟩
    let args : List Value := [.string "12", .bool true, .null]
    interleavedMemory.sites.Serves (fun _ => interleavedType) interleavedShape ∧
      ref.type.findMethod? "MIX" = some interleavedMethod ∧
      interleavedMethod.receive args = .ok [.long 12, .string "1"] ∧
      (Image.empty.invokeSite (Image.empty.run 1) 0 interleavedShape (.object ref)
        (.string "MIX" :: args)).run.run interleavedMemory =
        some (.ok (.ofList [.long 12, .string "1"]),
          interleavedMemory.behindCall interleavedShape (.object ref) (.string "MIX" :: args)) := by
  have serves : interleavedMemory.sites.Serves (fun _ => interleavedType) interleavedShape := by
    intro site found
    obtain rfl := List.mem_singleton.1 (List.mem_of_find?_eq_some found)
    refine ⟨CallSite.shape_after _ _, .after _ _ fun call mem l looked => ?_⟩
    obtain rfl := List.mem_singleton.1 mem
    cases looked
    rfl
  -- By the letters: to evaluate the comparison of the texts takes much longer.
  have same : Text.foldCase "mix" = Text.foldCase "MIX" := by
    rw [← String.toList_inj, Text.toList_foldCase, Text.toList_foldCase]
    decide
  have found : interleavedType.findMethod? "MIX" = some interleavedMethod := by
    simp only [RuntimeType.findMethod?, TypeLevel.declaredMethod?, Text.equalIgnoringCase,
      RuntimeType.levels, interleavedType, RuntimeType.extend, interleavedMethod, List.map_cons,
      List.map_nil, same, BEq.rfl, List.find?_cons_of_pos, Option.isSome_some,
      List.findSome?_cons_of_isSome]
  have received :
      interleavedMethod.receive [.string "12", .bool true, .null] = .ok [.long 12, .string "1"] := by
    rfl
  refine ⟨serves, found, received, ?_⟩
  rw [(Image.invokeSite_receives .empty (Image.empty.run 1) 0 serves rfl rfl found).1, received]
  rfl

end Interleaved

end StackScript
