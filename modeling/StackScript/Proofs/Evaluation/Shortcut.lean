import StackScript.Proofs.Evaluation.Expressions
import StackScript.Proofs.Machine.Shortcut
import StackScript.Proofs.Naming.Bodies

/-!
# Direct calls of methods

Where the type of the receiver is declared and the name of the method is written down, a method call
is compiled without a call site. Here this is compared with the same call compiled without the type:
on an object of exactly the type, with enough arguments, and where no conversion changes what is
passed on, both come to the same.

## Main definitions

* `Expr.operands`: the receiver and the arguments of a method call, which both evaluate first
* `Suits`: the call is one for which the direct way is meant
* `Eval.EndsAlike`: the same outcome, in memories that differ in one call site at most

## Main results

* `Eval.endsAlike_callDirect`: the direct way and the call site, for any operands
* `comes_of_directCall`: the code of the one and of the other
-/

namespace StackScript

variable {types : TypeId → RuntimeType} {shape : SiteShape} {name : String}

namespace Eval

/-! ## Arguments -/

section Arguments

variable {σ : Type} {params : List Parameter} {args : List (Eval σ Slot)}

/-- Values laid out along parameters, the context where it is asked for. -/
def lay : List Parameter → List Slot → List Slot
  | [], _ => []
  | param :: params, xs =>
    match param.type with
    | .context => .context :: lay params xs
    | .value _ => xs.headD .unset :: lay params xs.tail

theorem drop_eq_all (args : List (Eval σ Slot)) : drop args = (do let _ ← all args) := by
  induction args with
  | nil => rw [drop, all, pure_bind]
  | cons arg rest ih => simp only [drop, all, ih, bind_assoc, pure_bind]

/-- Enough arguments are evaluated one after the other, and laid out then. -/
theorem pass_eq_all (enough : (params.filter (!·.isContext)).length ≤ args.length) :
    pass params args = (do return lay params (← all args)) := by
  induction params generalizing args with
  | nil => simp only [pass, lay, drop_eq_all, bind_assoc, pure_bind]
  | cons param params ih =>
    cases htype : param.type with
    | context =>
      have context : param.isContext = true := by rw [Parameter.isContext, htype]
      rw [List.filter_cons_of_neg (by simp [context])] at enough
      simp only [pass, lay, htype, ih enough, bind_assoc, pure_bind]
    | value hint =>
      have value : param.isContext = false := by rw [Parameter.isContext, htype]
      rw [List.filter_cons_of_pos (by simp [value])] at enough
      cases args with
      | nil => simp at enough
      | cons arg rest =>
        simp only [pass, lay, htype, all, ih (Nat.le_of_succ_le_succ enough), bind_assoc,
          pure_bind, List.headD_cons, List.tail_cons]

/-- A frame that is entered directly and one that is entered through a call site get the same values,
but for contexts that are passed as arguments. -/
theorem plain_lay (params : List Parameter) (xs : List Slot) :
    ((lay params xs).map Slot.toArg).map FrameArg.plain =
      (layArgs (params.map Parameter.formal) (xs.map Slot.toValue)).map FrameArg.plain := by
  induction params generalizing xs with
  | nil => rfl
  | cons param params ih =>
    cases htype : param.type with
    | context =>
      have formal : param.formal = ⟨Formal.contextName, .context⟩ := by
        rw [Parameter.formal, htype]
      simp only [lay, htype, List.map_cons, formal, layArgs, ih]
      rfl
    | value hint =>
      have formal : param.formal = ⟨param.name, .supplied hint.representation⟩ := by
        rw [Parameter.formal, htype]
      simp only [lay, htype, List.map_cons, formal, layArgs, ih, List.map_tail, Slot.plain_toArg]
      cases xs <;> rfl

end Arguments

/-! ## Outcomes -/

section Outcomes

variable {α β : Type} {id : SiteId} {vars : Vars} {memory : Memory}

/-- Both computations go on forever, or both end with one outcome and the same variables, in
memories that differ in one call site at most. -/
def EndsAlike (id : SiteId) (o o' : Option (Except DispatchError α × Vars × Memory)) : Prop :=
  Option.Rel (fun x y => y.1 = x.1 ∧ y.2.1 = x.2.1 ∧ x.2.2.SameBut id y.2.2) o o'

theorem EndsAlike.refl (o : Option (Except DispatchError α × Vars × Memory)) :
    EndsAlike id o o := by
  cases o with
  | none => exact .none
  | some x => exact .some ⟨rfl, rfl, .refl id _⟩

/-- Behind the same computation. -/
theorem endsAlike_bind {m : Eval Memory α} {k k' : α → Eval Memory β}
    (h : ∀ x vars' memory', m.outcome vars memory = some (.ok x, vars', memory') →
      EndsAlike id ((k x).outcome vars' memory') ((k' x).outcome vars' memory')) :
    EndsAlike id ((m >>= k).outcome vars memory) ((m >>= k').outcome vars memory) := by
  rw [outcome_bind, outcome_bind]
  rcases hm : m.outcome vars memory with _ | ⟨e | x, vars', memory'⟩
  · exact .refl _
  · exact .refl _
  · exact h x vars' memory' hm

theorem outcome_return_request {σ : Type} (world : World σ) (r : Request) (f : Value → α) (vars : Vars)
    (s : σ) :
    (do return f (← request world r) : Eval σ α).outcome vars s =
      ((world r).run.run s).map fun (answer, s') => (answer.map f, vars, s') := by
  rw [outcome_bind, outcome_request]
  rcases (world r).run.run s with _ | ⟨_ | _, _⟩ <;> rfl

/-- The same is done with the answers to two requests. -/
theorem endsAlike_request {world : World Memory} {r r' : Request} (f : Value → α)
    (h : Option.Rel (fun x y => y.1 = x.1 ∧ x.2.SameBut id y.2) ((world r).run memory)
      ((world r').run memory)) :
    EndsAlike id ((do return f (← request world r) : Eval Memory α).outcome vars memory)
      ((do return f (← request world r') : Eval Memory α).outcome vars memory) := by
  rw [outcome_return_request, outcome_return_request]
  change EndsAlike id (((world r).run memory).map _) (((world r').run memory).map _)
  generalize (world r).run memory = x at h ⊢
  generalize (world r').run memory = y at h ⊢
  cases h with
  | none => exact .none
  | some same => exact .some ⟨congrArg (Except.map f) same.1, rfl, same.2⟩

end Outcomes

/-! ## Operands -/

section Operands

variable {σ : Type} {world : World σ} {receiver : Eval σ Slot} {args : List (Eval σ Slot)}

/-- The receiver and the arguments of a method call, one after the other. -/
def operands (receiver : Eval σ Slot) (args : List (Eval σ Slot)) : Eval σ (Slot × List Slot) := do
  let r ← receiver
  let xs ← all args
  return (r, xs)

theorem callDirect_eq {declaring : TypeEntry} {method : Routine}
    (enough : method.valueParams.length ≤ args.length) :
    callDirect world declaring method receiver args = (do
      let (r, xs) ← operands receiver args
      return .value (← request world (.call (.method declaring.name method.name) (some r.toValue)
        (withContext (lay method.params xs))))) := by
  simp only [callDirect, operands, pass_eq_all enough, bind_assoc, pure_bind]

theorem callLate_eq : callLate world shape receiver args = (do
    let (r, xs) ← operands receiver args
    return .value (← request world (.callSite shape r.toValue (xs.map Slot.toValue)))) := by
  simp only [callLate, operands, bind_assoc, pure_bind]

end Operands

end Eval

/-! ## Direct calls and call sites -/

/-- The types of a loaded program are known by their numbers. -/
theorem Image.known_load (program : Program) :
    (Image.load program).Known program.table.typeOf := by
  intro name type h
  have acyclic := Image.acyclic_of_type?_load h
  rw [Image.type?_load acyclic] at h
  obtain ⟨entry, found, rfl⟩ := Option.map_eq_some_iff.mp h
  exact Table.typeOf_id acyclic (Table.Found.first ⟨name, found⟩)

/-- A method of a program is called, as its receiver and its arguments are known, on an object of
exactly a type, and the parameters of the method take the values that are bound to them as they are.
The call is made in a memory that a run may come to: objects are of the types of the program, and
the number of the call's site belongs to the site. -/
structure Suits (program : Program) (type : QualifiedName) (method : Routine) (shape : SiteShape)
    (receiver : Slot) (args : List Slot) (memory : Memory) : Prop where
  exactly : ∃ ref, receiver.toValue = .object ref ∧
    (Image.load program).type? type.text = some ref.type
  takes : ∀ p ∈ method.valueParams.zip (args.map Slot.toValue), p.1.Takes p.2
  known : memory.Agree program.table.typeOf memory
  args : ∀ arg ∈ args, arg.Known program.table.typeOf
  site : ∀ site, memory.sites.get? shape.id = some site → site.shape = shape

/-- **A direct call comes to the same as the call through the site.** -/
theorem Eval.endsAlike_callDirect {program : Program} (acyclic : program.table.Acyclic) {fuel : Nat}
    {context : ContextId} {world : World Memory}
    (answers : world = (Image.load program).answer ((Image.load program).run fuel) context)
    (direct : shape.selector = .direct name) (plain : .unpacked ∉ shape.args)
    (owned : (Image.load program).Admits shape.Owns) {type : QualifiedName} {declaring : TypeEntry}
    {method : Routine}
    (resolved : program.table.resolveMethod? type.text name = some (declaring, method))
    (instance_method : method.isStatic = false) {receiver : Eval Memory Slot}
    {args : List (Eval Memory Slot)} (enough : method.valueParams.length ≤ args.length)
    {vars : Vars} {memory : Memory}
    (suits : ∀ r xs vars' memory',
      (operands receiver args).outcome vars memory = some (.ok (r, xs), vars', memory') →
        Suits program type method shape r xs memory') :
    EndsAlike shape.id ((callDirect world declaring method receiver args).outcome vars memory)
      ((callLate world shape receiver args).outcome vars memory) := by
  -- Both evaluate the same operands in the same order, so only the requests behind them differ.
  rw [callDirect_eq enough, callLate_eq]
  refine endsAlike_bind fun (r, xs) vars' memory' reached => endsAlike_request Slot.value ?_
  obtain ⟨⟨ref, object, exactly⟩, takes, known, hargs, site⟩ := suits r xs vars' memory' reached
  have length : xs.length = args.length := by
    have always : (operands receiver args).Always fun operands => operands.2.length = args.length :=
      .bind .trivial fun _ _ => (always_all args).bind fun _ hxs => .pure hxs
    exact always vars memory (r, xs) _ reached
  rw [Image.type?_load acyclic] at exactly
  -- The type of the object is declared, so its method is the one that the declarations give.
  obtain ⟨start, declared, same⟩ := Option.map_eq_some_iff.mp exactly
  obtain ⟨line, hline⟩ := acyclic.exists_line (Table.Found.mem ⟨_, declared⟩)
  have found := Table.findMethod?_of_resolveMethod? acyclic declared hline resolved
    instance_method
  have suit : Parameter.Suit method.params (xs.map Slot.toValue) :=
    Parameter.suit_of_takes (by rw [List.length_map, length]; exact enough) takes
  -- What the site has in its cache was put there by calls before, so it agrees with the types.
  have serves : memory'.sites.Serves program.table.typeOf shape := by
    intro old present
    refine ⟨site old present, ?_⟩
    have agree := known.sites.get? shape.id
    rw [present] at agree
    cases agree with
    | some agree => exact agree.reached
  rw [answers, object]
  exact Image.answer_call (Image.known_load program) owned (SiteShape.names_direct direct) plain
    known serves (same ▸ Table.typeOf_id acyclic (Table.Found.first ⟨_, declared⟩)) (same ▸ found)
    (fun v mem => by
      obtain ⟨x, hx, rfl⟩ := List.mem_map.mp mem
      exact (hargs x hx).toValue)
    suit (plain_lay method.params xs)

/-! ## The code of a method call -/

/-- What a method call evaluates first, with the numbers of the call sites that it needs for that. -/
def Expr.operands {σ : Type} (world : World σ) (env : BodyEnv) (receiver : Expr)
    (args : List Argument) : Numbered (Eval σ (Slot × List Slot)) := do
  let receiver ← receiver.meaning world env
  let args ← meaningArguments world env args
  return Eval.operands receiver args

/-- A call of a method by name, with the number of the next call site behind it. -/
theorem runFrom_methodCall {σ : Type} (world : World σ) (env : BodyEnv) (receiver : Expr)
    (name : String) (args : List Argument) (receiverType : Option QualifiedName) (n : SiteId) :
    ((Expr.methodCall receiver (.direct name) args receiverType).meaning world env).runFrom n =
      let object := (receiver.meaning world env).runFrom n
      let values := (meaningArguments world env args).runFrom object.2
      match (MethodName.direct name).target? env args receiverType with
      | some (declaring, method) =>
        (Eval.callDirect world declaring method object.1 values.1, values.2)
      | none =>
        (Eval.callLate world ⟨values.2, .direct name, args.map Argument.shape⟩ object.1 values.1,
          values.2 + 1) := by
  rw [Expr.meaning]
  simp only [Numbered.runFrom_bind, MethodName.meaning, Numbered.runFrom_pure]
  cases (MethodName.direct name).target? env args receiverType with
  | none => simp only [Numbered.runFrom_bind, Numbered.runFrom_site, Numbered.runFrom_pure]
  | some target => rfl

/-- **The code of a method call does the same with the type of the receiver as without it.** It does
so wherever it stands, in two bodies of which the one has it with the type and the other without:
from frames with the same variables in front of it, with the same call sites in its operands. If the
receiver turns out to be an object of exactly the type, if there is an argument for every parameter
of the method that takes one, and if these parameters take their values as they are, both come to
the same value or error, with the same variables, in memories that differ in the site of the call at
most. -/
theorem comes_of_directCall {program : Program} (acyclic : program.table.Acyclic) {env : BodyEnv}
    (table : env.table = program.table) (fuel : Nat) (context : ContextId) (c c' : Setting Memory)
    (answers : c.world = (Image.load program).answer ((Image.load program).run fuel) context)
    (answers' : c'.world = c.world) {receiver : Expr} {args : List Argument}
    (plain : ∀ arg ∈ args, arg.isUnpacked = false) {type : QualifiedName} {d d₁ d' d₁' : Draft}
    (written : Assembler.empty.Evolves d.asm)
    (compiled : Ends (emitValue env (.methodCall receiver (.direct name) args (some type))) d () d₁)
    (behind : d₁.asm.Evolves c.final) (written' : Assembler.empty.Evolves d'.asm)
    (compiled' : Ends (emitValue env (.methodCall receiver (.direct name) args none)) d' () d₁')
    (behind' : d₁'.asm.Evolves c'.final) (numbers : d'.nextSite = d.nextSite) {n : SiteId}
    (site : d₁'.nextSite = n + 1)
    (owned : (Image.load program).Admits
      (SiteShape.Owns ⟨n, .direct name, args.map Argument.shape⟩))
    (enough : ∀ declaring method,
      program.table.resolveMethod? type.text name = some (declaring, method) →
        method.valueParams.length ≤ args.length)
    (f f' : Frame) (memory : Memory) (hpc : f.pc = d.asm.code.size)
    (hsize : f.locals.size = c.final.slots.slots.size) (hpc' : f'.pc = d'.asm.code.size)
    (hsize' : f'.locals.size = c'.final.slots.slots.size)
    (vars : f'.vars c'.final.slots = f.vars c.final.slots)
    (suits : ∀ declaring method,
      program.table.resolveMethod? type.text name = some (declaring, method) →
        ∀ r xs vars' memory', ((Expr.operands c.world env receiver args).runFrom
            d.nextSite).1.outcome (f.vars c.final.slots) memory = some (.ok (r, xs), vars', memory') →
          Suits program type method ⟨n, .direct name, args.map Argument.shape⟩ r xs memory') :
    ∃ outcome outcome',
      Comes c d.asm d₁.asm f.stack (fun x => [x]) f memory outcome ∧
      Comes c' d'.asm d₁'.asm f'.stack (fun x => [x]) f' memory outcome' ∧
      Eval.EndsAlike n outcome outcome' := by
  have direct := ((means_lower _).value []).comes written compiled behind memory hpc rfl hsize
  have late := ((means_lower _).value []).comes written' compiled' behind' memory hpc' rfl hsize'
  have next := ((means_lower (c := c') (.methodCall receiver (.direct name) args none)).value
    []).numbers d' () d₁' compiled'
  rw [answers'] at late next
  rw [vars, numbers] at late
  rw [runFrom_methodCall] at direct late
  rw [numbers, runFrom_methodCall, site] at next
  simp only [MethodName.target?] at late next
  -- Both have come to the same with the operands. If the type has no such method, the call with the
  -- type is the call without it.
  obtain rfl := Nat.succ.inj next
  refine ⟨_, _, direct, late, ?_⟩
  cases target : (MethodName.direct name).target? env args (some type) with
  | none => exact .refl _
  | some found =>
    obtain ⟨declaring, method⟩ := found
    obtain ⟨resolved, instance_method⟩ := Option.filter_eq_some_iff.mp target
    rw [table] at resolved
    simp only [Bool.and_eq_true, Bool.not_eq_true'] at instance_method
    have shapes : .unpacked ∉ args.map Argument.shape := by
      intro mem
      obtain ⟨arg, harg, unpacked⟩ := List.mem_map.mp mem
      rw [Argument.shape, plain arg harg] at unpacked
      cases unpacked
    refine Eval.endsAlike_callDirect acyclic answers rfl shapes owned resolved instance_method.1 ?_
      (suits declaring method resolved)
    rw [meaningArguments_eq, Numbered.length_all, List.length_map]
    exact enough declaring method resolved

/-- A type with a method that takes the context and a value, and returns the value. -/
def returningType : SourceUnit :=
  ⟨"a.php", [.type ⟨⟨"A"⟩, none, [],
    [⟨"m", [⟨"c", .context, none⟩, ⟨"x", .value .value, none⟩], false, none, false,
      .straight [⟨.return (some (.var "x")), none⟩]⟩], false, false⟩]⟩

/-- A call of the method on the receiver of the body. -/
def callOnThis (type : Option QualifiedName) : Expr :=
  .methodCall .this (.direct "m") [.plain (.literal (.long 1))] type

/-- A body with a receiver. -/
def BodyEnv.onThis (table : Table) : BodyEnv :=
  ⟨table, .ofPreset .release, "f", [], false, true⟩

/-- Code from the start of a body on, finished there. -/
theorem exists_setting {σ : Type} (world : World σ) {env : BodyEnv} {e : Expr}
    (ok : ((emitValue env e).run (.start 0)).1.isOk = true)
    (finished : (((emitValue env e).run (.start 0)).2.asm.finish 16).isOk = true) :
    ∃ (c : Setting σ) (d : Draft), d = ((emitValue env e).run (.start 0)).2 ∧ c.world = world ∧
      Ends (emitValue env e) (.start 0) () d ∧ c.final = d.asm := by
  rcases hrun : (emitValue env e).run (.start 0) with ⟨result, d⟩
  rw [hrun] at ok finished
  cases result with
  | error => cases ok
  | ok =>
    cases hfinish : d.asm.finish 16 with
    | error =>
      rw [hfinish] at finished
      cases finished
    | ok out =>
      have h : Ends (emitValue env e) (.start 0) () d := hrun
      refine ⟨{
        world
        body := ⟨.function ⟨"f"⟩, .routine, [], true, false, "f", out.code, [], [], 0, #[], [], []⟩
        final := d.asm
        out
        maxLocals := 16
        written := ((emits_emitValue e).grows Slots.sound_empty h).evolves
        finished := hfinish
        code := rfl }, d, rfl, rfl, h, rfl⟩

/-- The parameter takes a value of any kind. -/
def Parameter.isMixed (param : Parameter) : Bool :=
  match param.type with
  | .value .value => true
  | _ => false

theorem Parameter.takes_of_isMixed {param : Parameter} (h : param.isMixed = true) (v : Value) :
    param.Takes v := by
  unfold isMixed at h
  unfold Takes
  split at h
  · next type => rw [type]; rfl
  · cases h

/-- The instruction is not the one of a call site. -/
def Instruction.isDirect : Instruction → Bool
  | .callSite _ => false
  | _ => true

/-- What is needed of a program for the call of the method, made on an object of its type. -/
def callsReturning (program : Program) : Bool :=
  let run (type : Option QualifiedName) :=
    (emitValue (.onThis program.table) (callOnThis type)).run (.start 0)
  let written (type : Option QualifiedName) :=
    (run type).1.isOk && ((run type).2.asm.finish 16).isOk
  let takesOne (method : Routine) :=
    !method.isStatic && method.valueParams.length == 1 && method.valueParams.all (·.isMixed)
  written (some ⟨"A"⟩) && written none && (run none).2.nextSite == 1 &&
    (program.table.type? "A").isSome &&
    (program.table.resolveMethod? "A" "m").any (fun found => takesOne found.2) &&
    program.table.types.all (·.base.isNone) &&
    program.bodies.all fun body => body.code.all (·.isDirect)

/-- The start of a body with a receiver, its variables unset. -/
def Frame.fresh (receiver : Value) (slots : Slots) : Frame :=
  ⟨0, some receiver, #[], slots.slots.map fun _ => .unset, #[], [], []⟩

theorem Frame.vars_fresh (receiver : Value) (slots : Slots) :
    (Frame.fresh receiver slots).vars slots =
      ⟨some receiver, fun _ => .unset, fun _ => .unset, .unset⟩ := by
  have unset (id : Nat) : (slots.slots.map fun _ => Slot.unset)[id]?.getD .unset = .unset := by
    rw [Array.getElem?_map]
    cases slots.slots[id]? <;> rfl
  unfold Frame.vars Frame.fresh
  simp only [unset]
  rfl

/-- Nothing in an empty memory is unknown. -/
theorem Memory.agree_empty (types : TypeId → RuntimeType) (cacheSize : Nat) :
    (Memory.empty cacheSize).Agree types (.empty cacheSize) where
  objects := .empty
  contexts := .empty
  shared := .empty
  sites := .nil
  natives := rfl
  routines := by simp [Memory.empty]

theorem comes_of_directCall_returning :
    ∃ (program : Program) (c c' : Setting Memory) (d₁ d₁' : Draft) (f f' : Frame)
      (outcome outcome' : Option (Except DispatchError Slot × Vars × Memory)),
      Program.compile (.ofPreset .release) [returningType] = .ok program ∧
      Ends (emitValue (.onThis program.table) (callOnThis (some ⟨"A"⟩))) (.start 0) () d₁ ∧
      Ends (emitValue (.onThis program.table) (callOnThis none)) (.start 0) () d₁' ∧
      Comes c .empty d₁.asm f.stack (fun x => [x]) f (.empty 4) outcome ∧
      Comes c' .empty d₁'.asm f'.stack (fun x => [x]) f' (.empty 4) outcome' ∧
      Eval.EndsAlike 0 outcome outcome' := by
  have compiled : (Program.compiled? (.ofPreset .release) [returningType]).map callsReturning =
      some true := by decide +kernel
  obtain ⟨program, compiled, holds⟩ := Option.map_eq_some_iff.mp compiled
  simp only [callsReturning, Bool.and_eq_true] at holds
  obtain ⟨⟨⟨⟨⟨⟨direct, late⟩, number⟩, declared⟩, method⟩, bases⟩, bodies⟩ := holds
  obtain ⟨type, declared⟩ := Option.isSome_iff_exists.mp declared
  have acyclic : program.table.Acyclic :=
    Table.acyclic_of_bases fun entry mem => by simpa using List.all_eq_true.mp bases entry mem
  have loaded : (Image.load program).type? "A" = some (program.table.loadType type) := by
    rw [Image.type?_load acyclic, declared]
    rfl
  let world : World Memory :=
    (Image.load program).answer ((Image.load program).run 20) 0
  obtain ⟨c, d₁, hd₁, hworld, hends, hfinal⟩ := exists_setting world direct.1 direct.2
  obtain ⟨c', d₁', hd₁', hworld', hends', hfinal'⟩ := exists_setting world late.1 late.2
  let receiver : Value := .object ⟨0, program.table.loadType type⟩
  -- What is known of every such program is left to show of this one: no body needs the site, and
  -- the method takes what it is given.
  have owned : (Image.load program).Admits
      (SiteShape.Owns ⟨0, .direct "m", [Argument.plain (.literal (.long 1))].map Argument.shape⟩) := by
    intro key body found shape mem
    obtain ⟨entry, hentry, rfl⟩ := Option.map_eq_some_iff.mp found
    have stands : entry.2 ∈ program.bodies := by
      have := List.mem_of_find?_eq_some hentry
      simp only [Image.load, List.mem_reverse, List.mem_map] at this
      obtain ⟨body, hbody, rfl⟩ := this
      exact hbody
    have none := Array.all_eq_true'.mp (List.all_eq_true.mp bodies _ stands) _ mem
    cases none
  obtain ⟨outcome, outcome', comes, comes', alike⟩ :=
    comes_of_directCall acyclic rfl 20 0 c c' hworld (hworld'.trans hworld.symm)
      (by simp [Argument.isUnpacked]) (.refl _) hends (hfinal ▸ .refl _) (.refl _) hends'
      (hfinal' ▸ .refl _) rfl (by rw [hd₁']; exact eq_of_beq number) owned
      (fun declaring found resolved => by
        rw [resolved] at method
        have one : found.valueParams.length = 1 := by
          simp only [Option.any_some, Bool.and_eq_true, beq_iff_eq] at method
          exact method.1.2
        exact Nat.le_of_eq one)
      (.fresh receiver c.final.slots) (.fresh receiver c'.final.slots) (.empty 4) rfl
      Array.size_map rfl Array.size_map (by rw [Frame.vars_fresh, Frame.vars_fresh])
      (fun declaring found resolved r xs vars memory reached => by
        rw [Frame.vars_fresh] at reached
        cases reached
        rw [resolved] at method
        simp only [Option.any_some, Bool.and_eq_true, List.all_eq_true] at method
        refine ⟨⟨_, rfl, loaded⟩, fun pair mem => ?_, Memory.agree_empty _ 4, ?_,
          fun site found => by cases found⟩
        · exact Parameter.takes_of_isMixed (method.2 pair.1 (List.of_mem_zip mem).1) pair.2
        · simp only [List.mem_singleton, forall_eq]
          exact .long 1)
  exact ⟨program, c, c', d₁, d₁', _, _, outcome, outcome', Program.compile_of_compiled? compiled,
    hends, hends', comes, comes', alike⟩

end StackScript
