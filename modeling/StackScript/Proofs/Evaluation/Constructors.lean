import StackScript.Proofs.Evaluation.Expressions

/-!
# Constructors follow their meaning

A constructor stores the context, calls the constructor of the base, stores the initial values of
the fields of its own type, and then runs the user's initializer if the object is of exactly its
type. Each part of its code follows a computation on the parameters of the constructor.

## Main definitions

* `Eval.passed`, `Eval.forwarded`: what a constructor passes on
* `Eval.constructor`: what a constructor does

## Main results

* `Follows.guarded`: code behind a test
* `means_constructorHead`: the code of a constructor up to its end
-/

namespace StackScript

open Emit
open Assembler (Evolves Grows)

/-! ## What a constructor does -/

namespace Eval

variable {σ : Type} (world : World σ) (env : BodyEnv)

/-- The values of the parameters from a place on, the context where it is asked for. -/
def passed (vars : Vars) (index : Nat) : List Parameter → List Slot
  | [] => []
  | param :: rest =>
    (if param.isContext then .context else vars.args (index + 1)) :: passed vars (index + 1) rest

/-- One value for every parameter of the base's initializer: the context where it is asked for, else
the next of the constructor's own values, else the default. -/
def forwarded (vars : Vars) : List OwnParameter → List Parameter → List Slot
  | _, [] => []
  | own, param :: rest =>
    match param.type, own, param.default with
    | .context, own, _ => .context :: forwarded vars own rest
    | .value _, mine :: own, _ => vars.args (mine.index + 1) :: forwarded vars own rest
    | .value _, [], some default => .value default.value :: forwarded vars [] rest
    | .value _, [], none => .unset :: forwarded vars [] rest

theorem length_passed (vars : Vars) (index : Nat) (params : List Parameter) :
    (passed vars index params).length = params.length := by
  induction params generalizing index with
  | nil => rfl
  | cons param rest ih => rw [passed, List.length_cons, ih, List.length_cons]

theorem length_forwarded (vars : Vars) (own : List OwnParameter) (params : List Parameter) :
    (forwarded vars own params).length = params.length := by
  induction params generalizing own with
  | nil => simp [forwarded]
  | cons param rest ih =>
    unfold forwarded
    split <;> simp [ih]

/-- What follows from the variables. -/
def ofVars {α : Type} (f : Vars → α) : Eval σ α := do return f (← vars)

/-- A value in front of others, where all follow from the variables. -/
theorem ofVars_cons {α : Type} (f : Vars → α) (g : Vars → List α) :
    (do
      let x ← ofVars f
      return x :: (← ofVars g) : Eval σ (List α)) = ofVars fun vars => f vars :: g vars := rfl

/-- The receiver keeps the context, if the constructor of the type is one that stores it. -/
def storeContext (entry : TypeEntry) : Eval σ Unit :=
  if entry.storesContext then do writeField world contextField (← readReceiver) .context
  else return ()

/-- A body is called on the receiver, with values that follow from the variables. Its result is not
needed. -/
def callOnReceiver (body : BodyName) (values : Vars → List Slot) : Eval σ Unit := do
  let receiver ← readReceiver
  let values ← ofVars values
  discard (request world (.call body (some receiver.toValue) (withContext values)))

/-- The constructor of the base is called with what it is forwarded, if there is a base. -/
def constructBase (entry : TypeEntry) : Eval σ Unit :=
  match entry.base with
  | none => return ()
  | some name =>
    match env.table.type? name.text with
    | some base =>
      callOnReceiver world (.constructor base.name) fun vars =>
        forwarded vars (ownParametersFrom 0 env.params) (initializerParams env.table base)
    | none => callOnReceiver world (.constructor name) fun vars => passed vars 0 env.params

/-- The initial value of a field. -/
def initialValue (field : Field) : Numbered (Eval σ Slot) :=
  match field.initializer with
  | some initializer => initializer.meaning world env
  | none => return (return .unset)

/-- The initial values of fields are stored in the receiver, one after the other. -/
def initializeFields : List Field → Numbered (Eval σ Unit)
  | [] => return (return ())
  | field :: rest => do
    let value ← initialValue world env field
    let others ← initializeFields rest
    return do
      let receiver ← readReceiver
      writeField world field.name receiver (← value)
      others

/-- The user's initializer, if there is one, is called on a receiver of exactly the type, with the
parameters of the constructor. -/
def runInitializer (entry : TypeEntry) : Eval σ Unit :=
  match env.table.resolveInitializer? entry with
  | none => return ()
  | some (declaring, init) => do
    if (← readReceiver).toValue.isExactly entry.name then
      callOnReceiver world ((BodyName.method declaring.name init.name).atSite
        declaring.placement.site?) fun vars => passed vars 0 env.params

/-- What the constructor of a type does. -/
def constructor (entry : TypeEntry) : Numbered (Eval σ Unit) := do
  let fields ← initializeFields world env entry.instanceFields
  return do
    storeContext world entry
    constructBase world env entry
    fields
    runInitializer world env entry

end Eval

/-! ## Parts of the code -/

section Code

variable (env : BodyEnv) (entry : TypeEntry)

/-- The code that stores the context. -/
def contextCode : Emit Unit :=
  if entry.storesContext then do
    loadThis env
    loadContext env
    emit .assertNotNull
    emit (.storeField contextField)
  else pure ()

/-- The code that calls the constructor of the base. -/
def baseCode : Emit Unit :=
  match entry.base with
  | some base => forwardToBase env base
  | none => pure ()

/-- The code that runs the user's initializer. -/
def initializerCode : Emit Unit :=
  match env.table.resolveInitializer? entry with
  | some (declaring, init) => runInitializer env entry declaring init
  | none => pure ()

/-- The code of a constructor in front of its end. -/
def constructorHead : Emit Unit := do
  contextCode env entry
  baseCode env entry
  initializeFields env entry.instanceFields
  initializerCode env entry

/-- A constructor ends with null. -/
theorem constructorCode_eq :
    constructorCode env entry = (do constructorHead env entry; returnNull) := by
  unfold constructorCode constructorHead contextCode baseCode initializerCode
  cases entry.storesContext <;> cases entry.base <;>
    cases env.table.resolveInitializer? entry <;>
    simp only [bind_assoc, pure_bind, Bool.false_eq_true, if_false, if_true]

end Code

section Parts

variable {σ : Type} {c : Setting σ} {env : BodyEnv} {pre : List Slot} {x r : Slot}

/-- The instruction that checks the context before it is stored. -/
theorem means_assertContext :
    Means c 0 (emit .assertNotNull) (.context :: pre) (fun _ => pure ()) id
      fun _ => .context :: pre :=
  means_stack (x := ()) rfl rfl rfl fun f base hf => by
    simp only [Frame.execute, hf, List.cons_append]
    rw [← List.cons_append, ← hf]
    rfl

theorem means_contextCode (entry : TypeEntry) :
    Means c 0 (contextCode env entry) pre (fun _ => Eval.storeContext c.world entry) id
      fun _ => pre := by
  unfold contextCode Eval.storeContext
  cases entry.storesContext with
  | true =>
    exact (means_loadThis.bind fun _ r => means_context.before fun _ =>
      means_assertContext.before fun _ => means_writeField (x := .context) (r := r)).cast rfl
  | false => exact means_pure fun _ => pre

/-! ## Parameters -/

section Parameters

variable {f : Vars → Slot} {g : Vars → List Slot} {first rest : Emit Unit} {k : Int}

/-- The parameter at a place is loaded. -/
theorem means_loadParameter {index : Nat} :
    Means c 1 (do emit (.loadArg (← argumentSlot index))) pre
      (fun _ => Eval.ofVars (·.args (index + 1))) id fun y => y :: pre :=
  means_argument means_loadArg

/-- A constant does not depend on the variables. -/
theorem means_constant (h : Means c 1 first pre (fun _ => pure x) id fun y => y :: pre) :
    Means c 1 first pre (fun _ => Eval.ofVars fun _ => x) id fun y => y :: pre := h

/-- A value in front of others, where all follow from the variables. -/
theorem means_consVars {n : Nat}
    (h : Means c 1 first pre (fun _ => Eval.ofVars f) id fun y => y :: pre)
    (h' : ∀ pre, Means c n rest pre (fun _ => Eval.ofVars g) id fun xs => xs.reverse ++ pre) :
    Means c (n + 1 : Nat) (do first; rest) pre
      (fun _ => Eval.ofVars fun vars => f vars :: g vars) id fun xs => xs.reverse ++ pre := by
  have both := means_cons h h'
  simp only [Eval.ofVars_cons] at both
  exact both.cast (by omega)

theorem means_passThroughFrom (index : Nat) (params : List Parameter) :
    Means c params.length (passThroughFrom env index params) pre
      (fun _ => Eval.ofVars (Eval.passed · index params)) id fun xs => xs.reverse ++ pre := by
  induction params generalizing index pre with
  | nil => exact means_pure (y := []) fun xs : List Slot => xs.reverse ++ pre
  | cons param rest ih =>
    unfold passThroughFrom
    simp only [Eval.passed]
    cases param.isContext with
    | true => exact means_consVars (means_constant means_loadContext) fun _ => ih (index + 1)
    | false =>
      have loaded : Means c 1 (do emit (.loadArg (← argumentSlot index))) pre
          (fun _ => Eval.ofVars (·.args (index + 1))) id fun y => y :: pre := means_loadParameter
      have both := means_consVars loaded fun _ => ih (index + 1)
      simp only [bind_assoc] at both
      exact both

theorem means_forwardParameters {base : QualifiedName} (own : List OwnParameter)
    (params : List Parameter) :
    Means c params.length (forwardParameters env base own params) pre
      (fun _ => Eval.ofVars (Eval.forwarded · own params)) id fun xs => xs.reverse ++ pre := by
  induction params generalizing own pre with
  | nil =>
    simp only [forwardParameters, Eval.forwarded]
    exact means_pure (y := []) fun xs : List Slot => xs.reverse ++ pre
  | cons param rest ih =>
    unfold forwardParameters Eval.forwarded
    cases param.type with
    | context => exact means_consVars (means_constant means_loadContext) fun _ => ih own
    | value expected =>
      cases own with
      | cons mine own =>
        dsimp only
        split
        · have loaded : Means c 1 (do emit (.loadArg (← argumentSlot mine.index))) pre
              (fun _ => Eval.ofVars (·.args (mine.index + 1))) id fun y => y :: pre :=
            means_loadParameter
          have both := means_consVars loaded fun _ => ih own
          simp only [bind_assoc] at both
          exact both
        · exact means_throw
      | nil =>
        cases param.default with
        | some default =>
          exact means_consVars (means_constant (means_loadLiteral default)) fun _ => ih []
        | none => exact means_throw

end Parameters

/-! ## Calls on the receiver -/

section Calls

variable {push : Emit Unit} {values : Vars → List Slot} {n : Nat} {body : BodyName}

theorem means_callOnReceiver (hn : ∀ vars, (values vars).length = n)
    (h : ∀ pre, Means c n push pre (fun _ => Eval.ofVars values) id fun xs => xs.reverse ++ pre) :
    Means c 0
      (do
        loadThis env
        loadContext env
        push
        emit (.call body n true)
        emit .pop) pre
      (fun _ => Eval.callOnReceiver c.world body values) id fun _ => pre := by
  have lengths : (Eval.ofVars values : Eval σ (List Slot)).Always fun xs => xs.length = n :=
    .bind .trivial fun vars _ => .pure (hn vars)
  have call (r : Slot) (xs : List Slot) (hxs : xs.length = n) :
      Means c (-n - 2) (do emit (.call body n true); emit .pop)
        (xs.reverse ++ .context :: r :: pre)
        (fun _ => discard (Eval.request c.world
          (.call body (some r.toValue) (Eval.withContext xs)))) id fun _ => pre := by
    have asked : Means c _ (emit (.call body n true)) (xs.reverse ++ .context :: ([r] ++ pre)) _ id
        fun y => y :: pre :=
      means_ask xs [r] rfl rfl (change_call _ _ _) rfl fun f base hf => Frame.execute_callOn hf hxs
    have popped : Means c _ (do emit (.call body n true); emit .pop)
        (xs.reverse ++ .context :: r :: pre) _ id fun _ => pre :=
      asked.after fun _ _ => means_pop
    have dropped : Means c _ (do emit (.call body n true); emit .pop)
        (xs.reverse ++ .context :: r :: pre) _ id fun _ => pre :=
      popped.map (fun _ => ()) fun _ => rfl
    simp only [bind_assoc, pure_bind] at dropped
    exact dropped.cast (by rw [if_true]; omega)
  have passed (r : Slot) := (h (.context :: r :: pre)).bindWhere (fun _ => lengths)
    ⟨List.replicate n .unset, List.length_replicate⟩ fun _ xs hxs => call r xs hxs
  exact (means_loadThis.bind fun _ r => means_context.before fun _ => passed r).cast (by omega)

/-- The call of the base's constructor. -/
theorem means_baseCode (entry : TypeEntry) :
    Means c 0 (baseCode env entry) pre (fun _ => Eval.constructBase c.world env entry) id
      fun _ => pre := by
  unfold baseCode Eval.constructBase
  cases entry.base with
  | none => exact means_pure fun _ => pre
  | some name =>
    dsimp only
    unfold forwardToBase
    cases env.table.type? name.text with
    | some base =>
      exact means_callOnReceiver (fun vars => Eval.length_forwarded vars _ _) fun _ =>
        means_forwardParameters _ _
    | none =>
      dsimp only
      split
      · exact means_callOnReceiver (fun vars => Eval.length_passed vars _ _) fun _ =>
          means_passThroughFrom 0 _
      · exact means_throw

end Calls

/-! ## Fields -/

theorem means_initialValue (field : Field) :
    Pushes c (initialValue env field) (Eval.initialValue c.world env field) := by
  intro pre
  unfold initialValue Eval.initialValue
  cases field.initializer with
  | some initializer => exact (means_lower initializer).value pre
  | none => exact means_push rfl rfl rfl fun _ => rfl

theorem means_initializeFields (fields : List Field) :
    Means c 0 (initializeFields env fields) pre
      (fun n => ((Eval.initializeFields c.world env fields).runFrom n).1)
      (fun n => ((Eval.initializeFields c.world env fields).runFrom n).2) fun _ => pre := by
  induction fields with
  | nil => exact means_pure fun _ => pre
  | cons field rest ih =>
    simp only [initializeFields, Eval.initializeFields, Numbered.runFrom_bind,
      Numbered.runFrom_pure]
    exact (means_loadThis.bind fun _ r => (means_initialValue field (r :: pre)).bind fun _ x =>
      means_writeField.bind fun _ _ => ih).cast rfl

end Parts

/-! ## Code behind a test -/

section Guarded

variable {σ : Type} {c : Setting σ} {a b e : Assembler} {skip : Label} {pre : List Slot}
  {test : Eval σ Slot} {m : Eval σ Unit}

/-- Code that is jumped over if a test fails is in one piece, and leaves the stack as it was. -/
theorem Assembler.Grows.guarded (hskip : skip = a.labels.size)
    (first : Grows 1 a.defineLabel.2 b) (second : Grows 0 (b.branch .ifFalse skip) e) :
    Grows 0 a (e.mark skip) := by
  have size₁ := first.evolves.labels_le
  have size₂ := second.evolves.labels_le
  simp only [Assembler.labels_defineLabel, Assembler.labels_branch] at size₁ size₂
  have base : a.labels.size ≤ skip := Nat.le_of_eq hskip.symm
  have skip₁ : skip < b.labels.size := Nat.lt_of_le_of_lt (Nat.le_of_eq hskip) size₁
  have skip₂ : skip < e.labels.size := Nat.lt_of_lt_of_le skip₁ size₂
  refine ⟨?_, fun hf => ?_, fun id hid => ?_⟩
  · refine .tail ?_ (.mark base skip₂)
    refine .trans ?_ (second.scribes.weaken (by simp only [Assembler.labels_branch]; omega))
    refine .tail ?_ (.branch (by decide) base skip₁)
    refine .trans ?_ (first.scribes.weaken (by simp only [Assembler.labels_defineLabel]; omega))
    exact .single .defineLabel
  · obtain ⟨hf₂, -, agrees, -⟩ := Assembler.fault_mark hf
    have hf₁ := second.evolves.fault hf₂
    obtain ⟨hf₀, pops, -⟩ := Assembler.fault_branch hf₁
    have depth₁ := first.depth hf₀
    -- The test leaves the label at the depth that was there before it.
    have label₁ : ((b.branch .ifFalse skip).label skip).depth = some (b.depth - 1) := by
      rw [Assembler.label_branch skip₁ hf₁, if_pos rfl]
      rfl
    have label₂ : (e.label skip).depth = some (b.depth - 1) := by
      rw [second.scribes.label hf₂ (by simpa using skip₁), label₁]
    have one : (BranchKind.ifFalse.instruction 0).pops = 1 := rfl
    rw [Assembler.depth_mark hf, ← agrees _ label₂]
    simp only [Assembler.defineLabel] at depth₁
    omega
  · simpa using second.held id (by simpa using first.held id hid)

/-- **Code that is jumped over if a test fails** follows a computation that is made only if the test
succeeds. -/
theorem Follows.guarded (hskip : skip = a.labels.size) (ha : a.Sound)
    (htest : a.defineLabel.2.Evolves b) (hbody : (b.branch .ifFalse skip).Evolves e)
    (hc : (e.mark skip).Evolves c.final)
    (first : b.Evolves c.final → Follows c a.defineLabel.2 b pre test fun x => x :: pre)
    (second : (b.branch .ifFalse skip).Sound → e.Evolves c.final →
      Follows c (b.branch .ifFalse skip) e pre m fun _ => pre) :
    Follows c a (e.mark skip) pre (test >>= fun x => if x.toValue.truthy then m else pure ())
      fun _ => pre := by
  have size₁ := htest.labels_le
  have size₂ := hbody.labels_le
  simp only [Assembler.labels_defineLabel, Assembler.labels_branch] at size₁ size₂
  have skip₁ : skip < b.labels.size := Nat.lt_of_le_of_lt (Nat.le_of_eq hskip) size₁
  have skip₂ : skip < e.labels.size := Nat.lt_of_lt_of_le skip₁ size₂
  -- The stages of the code, one behind the other.
  have w₀ : a.Evolves b := .trans (.single .defineLabel) htest
  have w₁ : a.Evolves (b.branch .ifFalse skip) := w₀.trans (.single (.branch skip₁))
  have w₂ : a.Evolves e := w₁.trans hbody
  have t₂ : e.Evolves c.final := .trans (.single (.mark skip₂)) hc
  have t₁ : (b.branch .ifFalse skip).Evolves c.final := hbody.trans t₂
  have t₀ : b.Evolves c.final := .trans (.single (.branch skip₁)) t₁
  have r₁ : c.Reads (b.branch .ifFalse skip) := .of_evolves ha w₁ t₁
  have r₂ : c.Reads (e.mark skip) := .of_evolves ha (w₂.trans (.single (.mark skip₂))) hc
  have atSkip : c.final.PlacedAt skip e.code.size := r₂.placed skip₂
  have first := first t₀
  have closed : Leads e (e.mark skip) := leads_mark
  have second : Follows c (b.branch .ifFalse skip) (e.mark skip) pre m fun _ => pre :=
    (second r₁.sound t₂).after closed fun _ => .silent closed (by simp)
  have start : Leads a a.defineLabel.2 := ⟨Nat.le_refl _, .refl _, fun _ h => h⟩
  have tested : Leads b (b.branch .ifFalse skip) := leads_branch
  refine ⟨start.trans (first.leads.trans (tested.trans second.leads)),
    fun f base vars s hpc hstack hvars => ?_⟩
  refine .behind (.refl _) start (.refl _ f) ?_
  refine (first.comes f base vars s hpc hstack hvars).bind first.leads
    (tested.trans second.leads).size_le ?_
  intro x vars₁ s₁ f₁ _ hpc₁ hstack₁ hvars₁ _
  have branches : c.Reads (b.branch (.deciding false) skip) := r₁
  have test := sweeps_test (s := s₁) branches atSkip hpc₁ hstack₁
  cases hx : x.toValue.truthy with
  | false =>
    rw [if_pos hx] at test
    have ahead : b.code.size + 1 ≤ e.code.size := by simpa using second.leads.size_le
    exact .ends (test.climbs ahead) (by simp) rfl (hvars₁.congr rfl rfl rfl)
      (.congr (.refl _ f₁) rfl rfl rfl)
  | true =>
    rw [if_neg (by simp [hx])] at test
    refine .behind (test.climbs (Nat.le_refl _)) tested (.congr (.refl _ f₁) rfl rfl rfl) ?_
    simpa using second.comes { f₁ with pc := b.code.size + 1, stack := pre ++ base } base vars₁ s₁
      (by simp) rfl (hvars₁.congr rfl rfl rfl)

/-- Code that is jumped over if a test fails. -/
theorem means_guarded {value body : Emit Unit} {test : Numbered (Eval σ Slot)}
    (hvalue : Pushes c value test)
    (hbody : Means c 0 body pre (fun _ => m) id fun _ => pre) :
    Means c 0
      (do
        let skip ← defineLabel
        value
        branch .ifFalse skip
        body
        mark skip) pre
      (fun n => (test.runFrom n).1 >>= fun x => if x.toValue.truthy then m else pure ())
      (fun n => (test.runFrom n).2) fun _ => pre := by
  -- Both pieces write in one piece, wherever the code of the test starts.
  have grows {d : Draft} {d₁ d₂ : Draft} (hs : d.asm.slots.Sound)
      (htest : Ends value ⟨d.asm.defineLabel.2, d.nextSite⟩ () d₁)
      (hends : Ends body ⟨d₁.asm.branch .ifFalse d.asm.labels.size, d₁.nextSite⟩ () d₂) :
      Grows 1 d.asm.defineLabel.2 d₁.asm ∧
        Grows 0 (d₁.asm.branch .ifFalse d.asm.labels.size) d₂.asm := by
    have first := (hvalue pre).emits.grows (d := ⟨d.asm.defineLabel.2, d.nextSite⟩) hs htest
    refine ⟨first, hbody.emits.grows (d := ⟨d₁.asm.branch _ _, d₁.nextSite⟩) ?_ hends⟩
    simpa using first.sound hs
  refine ⟨fun d _ d' hs he => ?_, fun d _ d' he => ?_, fun d _ d' hd hs he hc => ?_⟩
  -- What it writes, which sites it numbers and what it does come apart into the same steps.
  all_goals
    simp only [ends_bind, ends_defineLabel, ends_branch, ends_mark] at he
    obtain ⟨_, _, ⟨rfl, rfl⟩, _, d₁, htest, _, _, rfl, _, d₂, hends, rfl⟩ := he
  · obtain ⟨first, second⟩ := grows hs htest hends
    exact .guarded rfl first second
  · have numbers := (hvalue pre).numbers _ _ _ htest
    have numbers' := hbody.numbers _ _ _ hends
    exact numbers'.trans numbers
  · obtain ⟨first, second⟩ := grows hs htest hends
    have labelled : d.asm.Evolves d.asm.defineLabel.2 := .single .defineLabel
    have slots : (d₁.asm.branch .ifFalse d.asm.labels.size).slots.Sound := by
      simpa using first.sound hs
    refine .guarded rfl hd first.evolves second.evolves hc (fun hfinal => ?_) fun sound hfinal => ?_
    · have start := Setting.Reads.of_evolves hd labelled (first.evolves.trans hfinal)
      exact (hvalue pre).follows ⟨_, d.nextSite⟩ _ d₁ start.sound hs htest hfinal
    · exact hbody.follows ⟨_, d₁.nextSite⟩ _ d₂ sound slots hends hfinal

end Guarded

/-! ## Constructors -/

section Constructors

variable {σ : Type} {c : Setting σ} {env : BodyEnv} {pre : List Slot}

/-- The receiver is tested for its exact type, and initialized. -/
theorem means_initializerCode (entry : TypeEntry) :
    Means c 0 (initializerCode env entry) pre (fun _ => Eval.runInitializer c.world env entry) id
      fun _ => pre := by
  unfold initializerCode Eval.runInitializer
  cases env.table.resolveInitializer? entry with
  | none => exact means_pure fun _ => pre
  | some found =>
    obtain ⟨declaring, init⟩ := found
    have exact_type (r : Slot) (pre : List Slot) :
        Means c 0 (emit (.isExactType entry.name)) (r :: pre)
          (fun _ => pure (Slot.value (.bool (r.toValue.isExactly entry.name)))) id
          fun y => y :: pre :=
      means_stack rfl rfl rfl fun f base hf => by
        simp only [Frame.execute, Frame.popValue, Frame.pop, hf, List.cons_append]
        rfl
    have tests : Pushes c (do loadThis env; emit (.isExactType entry.name))
        (return do return .value (.bool ((← Eval.readReceiver).toValue.isExactly entry.name))) :=
      fun pre => (means_loadThis.bind fun _ r => exact_type r pre).cast rfl
    have call : Means c 0
        (do
          loadThis env
          loadContext env
          passThrough env
          emit (.call ((BodyName.method declaring.name init.name).atSite declaring.placement.site?)
            env.params.length true)
          emit .pop) pre _ id fun _ => pre :=
      means_callOnReceiver (fun vars => Eval.length_passed vars 0 env.params) fun _ =>
        means_passThroughFrom 0 env.params
    have guarded := means_guarded tests call
    simp only [bind_assoc, Numbered.runFrom_pure, pure_bind] at guarded
    exact guarded

/-- **The code of a constructor follows its meaning** up to its end. -/
theorem means_constructorHead (entry : TypeEntry) :
    Means c 0 (constructorHead env entry) pre
      (fun n => ((Eval.constructor c.world env entry).runFrom n).1)
      (fun n => ((Eval.constructor c.world env entry).runFrom n).2) fun _ => pre :=
  ((means_contextCode entry).bind fun _ _ => (means_baseCode entry).bind fun _ _ =>
    (means_initializeFields entry.instanceFields).bind fun _ _ => means_initializerCode entry).cast
      rfl

end Constructors

end StackScript
