import StackScript.Proofs.Evaluation.Shortcut
import StackScript.Proofs.Program.Trampolines

/-!
# Method calls with unpacked arguments

A method call that is compiled to a call site pushes its receiver, the name of the method if that
is computed, and its operands as they are written; the site is told which of them are unpacked. When
the call is made, the operands are replaced by the arguments that they stand for, and the name is
taken off in front of them: it is never unpacked, and the method never gets it.

## Main definitions

* `MethodName.siteShape`: what the code tells the call site of a method call
* `Expr.lateOperands`: what a method call evaluates
* `Image.spreadCall`: the call that is made then

## Main results

* `outcome_lateCall`: a method call makes the call with the arguments that its operands stand for
* `run_spreadCall`: the method that is found receives these arguments and nothing else
* `spreads_arguments`: both for the code of a method call, and the same for objects that are called
-/

namespace StackScript

/-! ## Operands of a method call -/

namespace MethodName

/-- How a call site names the method. -/
def selector : MethodName → Selector
  | .direct name => .direct name
  | .computed _ => .computed

/-- There is a value for the name if it is computed, and none else. -/
inductive Selects : MethodName → Option Value → Prop
  | direct (text : String) : Selects (.direct text) none
  | computed (value : Expr) (v : Value) : Selects (.computed value) (some v)

/-- What the call site of a method call is told. A name that is computed is pushed in front of the
operands. -/
def siteShape (name : MethodName) (args : List Argument) (n : SiteId) : SiteShape where
  id := n
  selector := name.selector
  args :=
    match name with
    | .direct _ => args.map Argument.shape
    | .computed _ => .value :: args.map Argument.shape

/-- The name of the called method, for the value of a name that is computed. -/
def called (name : MethodName) (selected : Option Value) : Except DispatchError String :=
  match name with
  | .direct text => .ok text
  | .computed _ =>
    match selected.getD .null with
    | .string text => .ok text
    | other => .error (.badMethodName other.kind)

end MethodName

/-- The operands of a method call with their values. -/
def operandsOf (args : List Argument) (values : List Value) : List CallOperand :=
  (args.map Argument.shape).zipWith CallOperand.mk values

/-- The value of a name that is computed. -/
def MethodName.select {σ : Type} (name : MethodName) (selected : Eval σ Slot) :
    Eval σ (Option Value) :=
  match name with
  | .direct _ => return none
  | .computed _ => do return some (← selected).toValue

/-- What a method call evaluates, in this order: the receiver, the name if it is computed, and the
operands. -/
def Expr.lateOperands {σ : Type} (world : World σ) (env : BodyEnv) (receiver : Expr)
    (name : MethodName) (args : List Argument) :
    Numbered (Eval σ (Value × Option Value × List Value)) := do
  let receiver ← receiver.meaning world env
  let selected ← name.meaning world env
  let operands ← meaningArguments world env args
  return do
    let r ← receiver
    let text ← name.select selected
    let xs ← Eval.all operands
    return (r.toValue, text, xs.map Slot.toValue)

/-- What the world does, as a computation that leaves the variables alone. -/
def Eval.lift {σ α : Type} (action : ExceptT DispatchError (StateT σ Option) α) : Eval σ α :=
  ExceptT.mk fun w => (action.run.run w.2).map fun (answer, s') => (answer, (w.1, s'))

theorem Eval.request_eq_lift {σ : Type} (world : World σ) (request : Request) :
    Eval.request world request = Eval.lift (world request) := by
  refine ExceptT.ext (StateT.ext fun (vars, s) => ?_)
  exact Eval.outcome_request world request vars s

/-- A late-bound call with operands: the site is there from then on, and the name and the arguments
that the operands stand for are handed to it. -/
def Image.spreadCall (image : Image) (run : Runner) (context : ContextId) (shape : SiteShape)
    (receiver : Value) (selected : Option Value) (operands : List CallOperand) : Run Value := do
  modifyThe Memory (·.entered shape)
  let passed ← MonadExcept.ofExcept (spreadAll operands)
  image.invokeSite run context shape receiver (selected.toList ++ passed)

/-! ## The call that is made -/

section Calls

variable {image : Image} {run : Runner} {context : ContextId} {name : MethodName}
  {args : List Argument} {n : SiteId} {memory : Memory} {receiver : Value}
  {selected : Option Value} {values : List Value} {operands : List CallOperand}

/-- A late-bound call with operands, in a memory. -/
theorem Image.run_spreadCall_eq (image : Image) (run : Runner) (context : ContextId)
    (shape : SiteShape) (receiver : Value) (selected : Option Value) (operands : List CallOperand)
    (memory : Memory) :
    (image.spreadCall run context shape receiver selected operands).run.run memory =
      match spreadAll operands with
      | .error e => some (.error e, memory.entered shape)
      | .ok passed =>
        (image.invokeSite run context shape receiver (selected.toList ++ passed)).run.run
          memory := by
  have steps : (image.spreadCall run context shape receiver selected operands).run.run memory =
      ((do
        let passed ← MonadExcept.ofExcept (spreadAll operands)
        image.invokeSite run context shape receiver (selected.toList ++ passed) :
          Run Value).run.run (memory.entered shape)) := rfl
  rw [steps]
  cases spreadAll operands with
  | error => rfl
  | ok passed => exact image.run_invokeSite_entered run context memory shape receiver _

/-- What is pushed for a site, with the shapes that the site was told: the name is an argument in
front of those that the operands stand for. -/
theorem spreadAll_pushed (selects : name.Selects selected) :
    spreadAll ((name.siteShape args n).args.zipWith CallOperand.mk (selected.toList ++ values)) =
      (spreadAll (operandsOf args values)).map (selected.toList ++ ·) := by
  cases selects with
  | direct text =>
    show spreadAll (operandsOf args values) = (spreadAll (operandsOf args values)).map id
    cases spreadAll (operandsOf args values) <;> rfl
  | computed value v => exact spreadAll_value v _

/-- **A call through a site is a call with the operands that were pushed.** -/
theorem answer_eq_spreadCall (image : Image) (run : Runner) (context : ContextId)
    (receiver : Value) (length : values.length = args.length)
    (selects : name.Selects selected)
    (own : ∀ site, memory.sites.get? n = some site → site.shape = name.siteShape args n) :
    (image.answer run context
      (.callSite (name.siteShape args n) receiver (selected.toList ++ values))).run.run memory =
      (image.spreadCall run context (name.siteShape args n) receiver selected
        (operandsOf args values)).run.run memory := by
  have pushed : (selected.toList ++ values).length = (name.siteShape args n).args.length := by
    cases selects <;> simp [MethodName.siteShape, length]
  rw [image.run_answer_callSite run context pushed own, spreadAll_pushed selects,
    image.run_spreadCall_eq]
  cases spreadAll (operandsOf args values) <;> rfl

/-- **The method that is found receives the arguments that the operands stand for**, whatever the
site has served before; a name that is computed is not among them. -/
theorem run_spreadCall {types : TypeId → RuntimeType} {ref : ObjectRef} {passed : List Value}
    {called : String} {method : Method}
    (serves : memory.sites.Serves types (name.siteShape args n))
    (typed : types ref.type.id = ref.type) (selects : name.Selects selected)
    (spread : spreadAll operands = .ok passed) (named : name.called selected = .ok called)
    (found : ref.type.findMethod? called = some method) :
    (image.spreadCall run context (name.siteShape args n) (.object ref) selected operands).run.run
      memory =
      let after := memory.behindCall (name.siteShape args n) (.object ref)
        (selected.toList ++ passed)
      match method.receive passed with
      | .error e => some (.error e, after)
      | .ok converted =>
        (image.callRoutine run context method.routine (some (.object ref)) converted).run.run
          after := by
  have split : (name.siteShape args n).selectName (selected.toList ++ passed) =
      .ok (called, passed) := by
    cases selects with
    | direct text =>
      cases named
      rfl
    | computed value v =>
      cases v with
      | string text =>
        cases named
        rfl
      | _ => cases named
  obtain ⟨shaped, reached⟩ := serves.site
  rw [image.run_spreadCall_eq, spread]
  dsimp only
  rw [image.run_invokeSite, reached.prepare_found (shaped.symm ▸ split) typed found]
  cases method.receive passed <;> rfl

end Calls

/-! ## The code of a method call -/

section Code

variable {σ : Type} {world : World σ} {env : BodyEnv} {receiver : Expr} {name : MethodName}
  {args : List Argument} {receiverType : Option QualifiedName}

/-- A method call asks for a late-bound call with what was evaluated. -/
theorem runFrom_lateCall (late : name.target? env args receiverType = none) (n : SiteId) :
    ((Expr.methodCall receiver name args receiverType).meaning world env).runFrom n =
      let operands := (Expr.lateOperands world env receiver name args).runFrom n
      ((do
        let (r, selected, values) ← operands.1
        return .value (← Eval.request world
          (.callSite (name.siteShape args operands.2) r (selected.toList ++ values)))),
        operands.2 + 1) := by
  rw [Expr.meaning]
  simp only [Numbered.runFrom_bind, late, Numbered.runFrom_site, Expr.lateOperands]
  cases name with
  | direct text =>
    simp only [Numbered.runFrom_pure, Eval.callLate, MethodName.select, bind_assoc, pure_bind]
    rfl
  | computed value =>
    simp only [Numbered.runFrom_pure, Eval.callLate, MethodName.select, Eval.all, bind_assoc,
      pure_bind]
    rfl

/-- There is a value for every operand, and one for the name if it is computed. -/
theorem always_lateOperands (n : SiteId) :
    ((Expr.lateOperands world env receiver name args).runFrom n).1.Always
      fun (_, selected, values) => name.Selects selected ∧ values.length = args.length := by
  have selects (m : Eval σ Slot) : (name.select m).Always name.Selects := by
    cases name with
    | direct text => exact .pure (.direct text)
    | computed value => exact .bind .trivial fun v _ => .pure (.computed value v.toValue)
  refine .bind .trivial fun r _ => (selects _).bind fun text htext => ?_
  refine (Eval.always_all _).bind fun xs hxs => .pure ⟨htext, ?_⟩
  rw [meaningArguments_eq] at hxs
  rw [List.length_map, hxs.trans (Numbered.length_all _ _), List.length_map]

/-- What the world does counts, in the state that it finds. -/
theorem Eval.outcome_lift_congr {α β : Type} {x y : ExceptT DispatchError (StateT σ Option) α}
    {s : σ} (same : x.run.run s = y.run.run s) (k : α → Eval σ β) (vars : Vars) :
    (Eval.lift x >>= k).outcome vars s = (Eval.lift y >>= k).outcome vars s := by
  have lifted : (Eval.lift x).outcome vars s = (Eval.lift y).outcome vars s := by
    show (x.run.run s).map _ = (y.run.run s).map _
    rw [same]
  rw [outcome_bind, outcome_bind, lifted]

end Code

section Machine

variable {image : Image} {run : Runner} {context : ContextId} {env : BodyEnv} {receiver : Expr}
  {name : MethodName} {args : List Argument} {receiverType : Option QualifiedName}

/-- What a method call through a call site comes to. -/
def Expr.lateCall (image : Image) (run : Runner) (context : ContextId) (env : BodyEnv)
    (receiver : Expr) (name : MethodName) (args : List Argument) : Numbered (Eval Memory Slot) := do
  let operands ← Expr.lateOperands (image.answer run context) env receiver name args
  let n ← Numbered.site
  return do
    let (r, selected, values) ← operands
    return .value (← Eval.lift (image.spreadCall run context (name.siteShape args n) r selected
      (operandsOf args values)))

/-- **A method call makes the call with the arguments that its operands stand for**, if the number
of its call site is not taken by another one then. -/
theorem outcome_lateCall (late : name.target? env args receiverType = none) (k : SiteId)
    {n : SiteId} {vars : Vars} {memory : Memory}
    (site : (((Expr.methodCall receiver name args receiverType).meaning (image.answer run context)
      env).runFrom k).2 = n + 1)
    (own : ∀ operands vars' memory',
      ((Expr.lateOperands (image.answer run context) env receiver name args).runFrom k).1.outcome
          vars memory = some (.ok operands, vars', memory') →
        ∀ site, memory'.sites.get? n = some site → site.shape = name.siteShape args n) :
    (((Expr.methodCall receiver name args receiverType).meaning (image.answer run context)
      env).runFrom k).1.outcome vars memory =
      ((Expr.lateCall image run context env receiver name args).runFrom k).1.outcome vars
        memory := by
  rw [runFrom_lateCall late] at site ⊢
  obtain rfl : _ = n := Nat.succ.inj site
  simp only [Expr.lateCall, Numbered.runFrom_bind, Numbered.runFrom_site, Numbered.runFrom_pure]
  rw [Eval.outcome_bind, Eval.outcome_bind]
  have always := @always_lateOperands _ (image.answer run context) env receiver name args k
  rcases reached : ((Expr.lateOperands (image.answer run context) env receiver name
    args).runFrom k).1.outcome vars memory with _ | ⟨e | ⟨r, selected, values⟩, vars', memory'⟩
  · rfl
  · rfl
  · obtain ⟨selects, length⟩ := always vars memory _ _ reached
    have answered := answer_eq_spreadCall image run context r length selects (own _ _ _ reached)
    simp only [Eval.request_eq_lift]
    exact Eval.outcome_lift_congr answered (fun v => pure (Slot.value v)) vars'

/-- What a frame in front of the code of a method call comes to, if no type and no method are known
beforehand. -/
theorem comes_of_lateCall {c : Setting Memory} (answers : c.world = image.answer run context)
    (late : name.target? env args receiverType = none) {d d' : Draft}
    (written : Assembler.empty.Evolves d.asm)
    (compiled : Ends (emitValue env (.methodCall receiver name args receiverType)) d () d')
    (behind : d'.asm.Evolves c.final) {n : SiteId} (site : d'.nextSite = n + 1) {f : Frame}
    (memory : Memory) (hpc : f.pc = d.asm.code.size)
    (hsize : f.locals.size = c.final.slots.slots.size)
    (own : ∀ operands vars memory',
      ((Expr.lateOperands c.world env receiver name args).runFrom d.nextSite).1.outcome
          (f.vars c.final.slots) memory = some (.ok operands, vars, memory') →
        ∀ site, memory'.sites.get? n = some site → site.shape = name.siteShape args n) :
    Comes c d.asm d'.asm f.stack (fun x => [x]) f memory
      (((Expr.lateCall image run context env receiver name args).runFrom
        d.nextSite).1.outcome (f.vars c.final.slots) memory) := by
  have means : Pushes c (emitValue env (.methodCall receiver name args receiverType)) _ :=
    (means_lower _).value
  have comes := (means []).comes written compiled behind memory hpc rfl hsize
  have number := (means []).numbers d () d' compiled
  rw [answers] at comes number own
  rwa [outcome_lateCall late d.nextSite (number.symm.trans site) own] at comes

/-- **Method calls hand over the arguments that their operands stand for.** Wherever the code of a
method call that is compiled to a call site stands, it evaluates the receiver, a name that is
computed and the operands, in this order, and makes the call with what came of them.

If what is unpacked is no array, nothing is called. Otherwise the method of the name receives the
arguments that the operands stand for, whatever its site has served before.

The body that calls an object like a function, with an array, does the same as a late-bound call of
`__invoke` with the values of the array, but for the two call sites. -/
theorem spreads_arguments (image : Image) (fuel : Nat) (context : ContextId) (c : Setting Memory)
    (answers : c.world = image.answer (image.run fuel) context)
    (late : name.target? env args receiverType = none) {d d' : Draft}
    (written : Assembler.empty.Evolves d.asm)
    (compiled : Ends (emitValue env (.methodCall receiver name args receiverType)) d () d')
    (behind : d'.asm.Evolves c.final) {n : SiteId} (site : d'.nextSite = n + 1) (f : Frame)
    (memory : Memory) (hpc : f.pc = d.asm.code.size)
    (hsize : f.locals.size = c.final.slots.slots.size)
    (own : ∀ operands vars memory',
      ((Expr.lateOperands c.world env receiver name args).runFrom d.nextSite).1.outcome
          (f.vars c.final.slots) memory = some (.ok operands, vars, memory') →
        ∀ site, memory'.sites.get? n = some site → site.shape = name.siteShape args n) :
    Comes c d.asm d'.asm f.stack (fun x => [x]) f memory
        (((Expr.lateCall image (image.run fuel) context env receiver name args).runFrom
          d.nextSite).1.outcome (f.vars c.final.slots) memory) ∧
      (∀ (memory' : Memory) (r : Value) (selected : Option Value) (operands : List CallOperand) (e),
        spreadAll operands = .error e →
          (image.spreadCall (image.run fuel) context (name.siteShape args n) r selected
            operands).run.run memory' =
            some (.error e, memory'.entered (name.siteShape args n))) ∧
      (∀ (types : TypeId → RuntimeType) (memory' : Memory) (ref : ObjectRef)
        (selected : Option Value) (operands : List CallOperand) (passed : List Value)
        (called : String) (method : Method),
        memory'.sites.Serves types (name.siteShape args n) → types ref.type.id = ref.type →
        name.Selects selected → spreadAll operands = .ok passed →
        name.called selected = .ok called → ref.type.findMethod? called = some method →
          (image.spreadCall (image.run fuel) context (name.siteShape args n) (.object ref) selected
            operands).run.run memory' =
            let after := memory'.behindCall (name.siteShape args n) (.object ref)
              (selected.toList ++ passed)
            match method.receive passed with
            | .error e => some (.error e, after)
            | .ok converted =>
              (image.callRoutine (image.run fuel) context method.routine (some (.object ref))
                converted).run.run after) ∧
      ∀ (types : TypeId → RuntimeType) (table : Table) (settings : Settings) (entry : TypeEntry)
        (m : SiteId) (body : Body) (other : SiteShape) (memory' : Memory) (ref : ObjectRef)
        (entries : List (Value × Value)),
        ((WorkItem.invoke entry).compile table settings m).1 = .ok body → image.Known types →
        image.Admits (trampolineShape m).Owns → image.Admits other.Owns →
        other.Names "__invoke" → memory'.Agree types memory' →
        memory'.sites.Serves types (trampolineShape m) → memory'.sites.Serves types other →
        types ref.type.id = ref.type → Value.EntriesKnown types entries →
          Option.Rel (fun x y => y.1 = x.1 ∧ x.2.SameButBoth m other.id y.2)
            ((image.run (fuel + 7) context
              (.ofBody body (some (.object ref)) [.context, .value (.array entries)])).run memory')
            ((image.invokeSite (image.run (fuel + 2)) context other (.object ref)
              (entries.map (·.2))).run memory') := by
  refine ⟨comes_of_lateCall answers late written compiled behind site memory hpc hsize own,
    fun memory' r selected operands e fails => ?_,
    fun types memory' ref selected operands passed called method serves typed selects spread named
      found => run_spreadCall serves typed selects spread named found,
    fun types table settings entry m body other memory' ref entries compiled known owned owned'
      named agrees serves serves' typed hentries =>
        Image.run_trampoline_named compiled known owned owned' named agrees serves serves' typed
          hentries⟩
  rw [image.run_spreadCall_eq, fails]

end Machine

/-! ### A call of a computed name -/

/-- A method that is called with the object, of two integers. -/
def invokedMethod : Method where
  name := "__invoke"
  declaringType := "Callee"
  formals := [⟨"x", .supplied .long⟩, ⟨"y", .supplied .long⟩]
  routine := .native 0

/-- The type that declares the method. -/
def calleeType : RuntimeType := .extend none 0 "Callee" [invokedMethod]

/-- The type as it is declared. -/
def calleeEntry : TypeEntry :=
  ⟨⟨"Callee"⟩, ⟨"a.php", false, ⟨0, 0⟩⟩, none, [], [], false, true⟩

/-- The operands of the call: a value, and an array that is unpacked. -/
def computedCallArgs : List Argument :=
  [.plain (.literal (.long 1)), .unpacked (.array [.item (.literal (.string "2"))])]

/-- The call of a computed name on the receiver of the body. -/
def computedCall : Expr :=
  .methodCall .this (.computed (.literal (.string "__invoke"))) computedCallArgs none

/-- The method of the memory is the first of the host. It returns its arguments. -/
def calleeMemory : Memory := { Memory.empty 4 with natives := #[.arguments] }

theorem spreads_arguments_computedName :
    let name : MethodName := .computed (.literal (.string "__invoke"))
    let shape := name.siteShape computedCallArgs 0
    let object : ObjectRef := ⟨0, calleeType⟩
    ∃ (c : Setting Memory) (d' : Draft) (body : Body),
      Ends (emitValue (.onThis ⟨[], none⟩) computedCall) (.start 0) () d' ∧
      ((WorkItem.invoke calleeEntry).compile ⟨[], none⟩ (.ofPreset .release) 1).1 = .ok body ∧
      Comes c .empty d'.asm [] (fun x => [x]) (.fresh (.object object) c.final.slots) calleeMemory
        (((Expr.lateCall .empty (Image.empty.run 1) 0 (.onThis ⟨[], none⟩) .this name
          computedCallArgs).runFrom 0).1.outcome
          ((Frame.fresh (.object object) c.final.slots).vars c.final.slots) calleeMemory) ∧
      (Image.empty.spreadCall (Image.empty.run 1) 0 shape (.object object)
        (some (.string "__invoke")) [⟨.unpacked, .long 1⟩]).run.run calleeMemory =
          some (.error (.failed (.notUnpackable .int)), calleeMemory.entered shape) ∧
      (Image.empty.spreadCall (Image.empty.run 1) 0 shape (.object object)
        (some (.string "__invoke"))
        [⟨.value, .long 1⟩, ⟨.unpacked, .ofList [.string "2"]⟩]).run.run calleeMemory =
          some (.ok (.ofList [.long 1, .long 2]), calleeMemory.behindCall shape (.object object)
            [.string "__invoke", .long 1, .string "2"]) ∧
      Option.Rel (fun x y => y.1 = x.1 ∧ x.2.SameButBoth 1 2 y.2)
        ((Image.empty.run 8 0
          (.ofBody body (some (.object object)) [.context, .value (.ofList [.long 1, .long 2])])).run
          calleeMemory)
        ((Image.empty.invokeSite (Image.empty.run 3) 0 ⟨2, .direct "__invoke", [.value, .value]⟩
          (.object object) [.long 1, .long 2]).run calleeMemory) := by
  intro name shape object
  have written : ((emitValue (.onThis ⟨[], none⟩) computedCall).run (.start 0)).1.isOk &&
      (((emitValue (.onThis ⟨[], none⟩) computedCall).run (.start 0)).2.asm.finish 16).isOk &&
      ((emitValue (.onThis ⟨[], none⟩) computedCall).run (.start 0)).2.nextSite == 1 &&
      ((WorkItem.invoke calleeEntry).compile ⟨[], none⟩ (.ofPreset .release) 1).1.isOk := by
    decide +kernel
  simp only [Bool.and_eq_true, beq_iff_eq] at written
  obtain ⟨⟨⟨ok, finished⟩, number⟩, compiles⟩ := written
  obtain ⟨c, d', hd', answers, ends, final⟩ :=
    exists_setting (Image.empty.answer (Image.empty.run 1) 0) ok finished
  cases compiled : ((WorkItem.invoke calleeEntry).compile ⟨[], none⟩ (.ofPreset .release) 1).1 with
  | error =>
    rw [compiled] at compiles
    cases compiles
  | ok body =>
    -- The memory has no call sites yet, and one routine that returns its arguments.
    have noSite (shape : SiteShape) :
        calleeMemory.sites.Serves (fun _ => calleeType) shape := fun _ present => by cases present
    have known : calleeMemory.Agree (fun _ => calleeType) calleeMemory :=
      { Memory.agree_empty (fun _ => calleeType) 4 with
        natives := rfl
        routines := fun routine mem => by
          obtain rfl := Array.mem_singleton.mp mem
          exact .arguments }
    have typesKnown : Image.empty.Known fun _ => calleeType := fun _ _ held => by cases held
    have admits (shape : SiteShape) : Image.empty.Admits shape.Owns := fun _ _ held => by cases held
    have found : calleeType.findMethod? "__invoke" = some invokedMethod := by cbv
    have received : invokedMethod.receive [.long 1, .string "2"] = .ok [.long 1, .long 2] := by rfl
    have late : name.target? (.onThis ⟨[], none⟩) computedCallArgs none = none := rfl
    have number : d'.nextSite = 0 + 1 := by rw [hd', number]
    obtain ⟨comes, fails, receives, trampoline⟩ :=
      spreads_arguments .empty 1 0 c answers late (.refl _) ends (final ▸ .refl _) number
        (.fresh (.object object) c.final.slots) calleeMemory rfl Array.size_map
        (fun operands vars memory' reached site present => by
          rw [Frame.vars_fresh] at reached
          cases reached
          cases present)
    refine ⟨c, d', body, ends, rfl, comes, fails _ _ _ _ _ rfl, ?_, ?_⟩
    · rw [receives (fun _ => calleeType) calleeMemory object (some (.string "__invoke")) _
        [.long 1, .string "2"] "__invoke" invokedMethod (noSite _) rfl (.computed _ _) rfl rfl found]
      rw [received]
      rfl
    · refine trampoline (fun _ => calleeType) ⟨[], none⟩ (.ofPreset .release) calleeEntry 1 body
        ⟨2, .direct "__invoke", [.value, .value]⟩ calleeMemory object
        [(.long 0, .long 1), (.long 1, .long 2)] compiled typesKnown (admits _) (admits _)
        (SiteShape.names_direct rfl) known (noSite _) (noSite _) rfl ?_
      simp only [Value.entriesKnown_cons, Value.entriesKnown_nil, and_true]
      exact ⟨.long 0, .long 1, .long 1, .long 2⟩

end StackScript
