import StackScript.Proofs.Declaration.Lines
import StackScript.Proofs.Evaluation.Activation

/-!
# The construction of an object

What the constructors of a type and its bases do to a new object, written out in order: the context
is stored, the fields are stored from the root on, and then the user's initializer runs once.

## Main definitions

* `TypeEntry.constructorEnv`: the surroundings of a constructor's code
* `Construction.storeContexts`: the context is stored in the object
* `Construction.storeLine`: the fields of a type and its bases are stored, those of the bases first
* `Construction.runUserInitializer`: the user's initializer runs
* `Construction.inOrder`: all of that in order

## Main results

* `Construction.activation_constructor`: what one constructor does to its receiver
* `Construction.constructor_line`: what the constructors of a type and its bases do
-/

namespace StackScript

open Eval (activation ask forwarded passed withContext)

/-- The surroundings in which the code of a constructor is written. -/
def TypeEntry.constructorEnv (entry : TypeEntry) (table : Table) (settings : Settings) :
    BodyEnv where
  table := table
  settings := settings
  routine := (WorkItem.constructor entry).bodyName.text
  params := initializerParams table entry
  isStatic := false
  hasContext := true

namespace Construction

variable {σ : Type}

section Definitions

variable (world : World σ) (object : ObjectRef)

/-- The context is stored in the object, if it is for the type to store it. -/
def storeContext (entry : TypeEntry) : Act σ Unit :=
  if entry.storesContext then
    ask world (.storeField object contextField (.string Slot.contextMark))
  else return ()

/-- The context is stored in the object by a type and its bases, the type first. -/
def storeContexts : List TypeEntry → Act σ Unit
  | [] => return ()
  | entry :: bases => do
    storeContext world object entry
    storeContexts bases

variable (table : Table) (settings : Settings) (numbers : TypeEntry → SiteId)

/-- What the constructor of a base gets from the constructor of a type. -/
def forwardedArgs (entry base : TypeEntry) (args : List FrameArg) : List FrameArg :=
  withContext (forwarded (.enter (some (.object object)) args)
    (ownParametersFrom 0 (initializerParams table entry)) (initializerParams table base))

/-- The constructor of a base is called on the object. -/
def callBase (entry : TypeEntry) (args : List FrameArg) : Option TypeEntry → Act σ Unit
  | some base =>
    ask world (.call (.constructor base.name) (some (.object object))
      (forwardedArgs object table entry base args))
  | none => return ()

/-- The fields of a type are stored in their order, each with its initial value. What is left are
the variables of the constructor. -/
def storeOwn (entry : TypeEntry) (args : List FrameArg) : Act σ Vars := do
  let stores := Eval.storeFields world (entry.constructorEnv table settings) object
    entry.instanceFields
  return (← activation (.enter (some (.object object)) args) (stores.runFrom (numbers entry)).1).2

/-- The fields of a type and its bases are stored, those of the bases first. What is left are the
variables of the constructor of the type. -/
def storeLine : List TypeEntry → List FrameArg → Act σ Vars
  | [], args => return .enter (some (.object object)) args
  | entry :: bases, args => do
    match bases.head? with
    | some base =>
      let _ ← storeLine bases (forwardedArgs object table entry base args)
    | none => pure ()
    storeOwn world object table settings numbers entry args

/-- The user's initializer runs, if the type or one of its bases has one, with the parameters of the
constructor as they are in its variables. -/
def runUserInitializer (entry : TypeEntry) (vars : Vars) : Act σ Unit :=
  match table.resolveInitializer? entry with
  | some (declaring, init) =>
    ask world (.call ((BodyName.method declaring.name init.name).atSite declaring.placement.site?)
      (some (.object object)) (withContext (passed vars 0 init.params)))
  | none => return ()

/-- The user's initializer runs if the object is of exactly the type. -/
def runIfExact (entry : TypeEntry) (vars : Vars) : Act σ Unit :=
  if (Value.object object).isExactly entry.name then
    runUserInitializer world object table entry vars
  else return ()

/-- **The construction of an object**: the context, then the fields from the root on, then the
user's initializer. The world that answers may be another one behind the context. -/
def inOrder (world world' : World σ) (object : ObjectRef) (table : Table) (settings : Settings)
    (numbers : TypeEntry → SiteId) (entry : TypeEntry) (line : List TypeEntry)
    (args : List FrameArg) : Act σ Unit := do
  storeContexts world object line
  let vars ← storeLine world' object table settings numbers line args
  runUserInitializer world' object table entry vars

end Definitions

/-! ## One constructor -/

section Constructor

variable {world : World σ} {object : ObjectRef} {table : Table} {settings : Settings}
    {numbers : TypeEntry → SiteId} {entry : TypeEntry} {base? : Option TypeEntry}
    {args : List FrameArg} {vars : Vars}

/-- The base of a type is declared, if it has one. -/
def Rooted (table : Table) (entry : TypeEntry) : Prop :=
  entry.base.isSome → (table.base? entry).isSome

theorem activation_constructBase (h : vars = .enter (some (.object object)) args)
    (rooted : Rooted table entry) :
    activation vars (Eval.constructBase world (entry.constructorEnv table settings) entry) = (do
      callBase world object table entry args (table.base? entry)
      return ((), vars)) := by
  subst h
  unfold Eval.constructBase Table.base?
  cases named : entry.base with
  | none => rfl
  | some name =>
    cases declared : table.type? name.text with
    | none =>
      have none_above : table.base? entry = none := by rw [Table.base?, named]; exact declared
      have := rooted (by rw [named]; rfl)
      rw [none_above] at this
      cases this
    | some base =>
      simp only [TypeEntry.constructorEnv, declared, Option.bind_some]
      exact Eval.activation_callOnReceiver rfl _ _

/-- Behind an activation only what it can come to counts. -/
theorem activation_bind_congr {α β : Type} {m : Eval σ α} {k k' : α × Vars → Act σ β}
    (h : ∀ s x vars' s', m.outcome vars s = some (.ok x, vars', s') → k (x, vars') = k' (x, vars')) :
    (activation vars m >>= k) = activation vars m >>= k' := by
  refine ExceptT.ext (StateT.ext fun s => ?_)
  change ((activation vars m).run.run s).bind _ = ((activation vars m).run.run s).bind _
  rw [Eval.run_activation]
  rcases outcome : m.outcome vars s with _ | ⟨_ | x, vars', s'⟩
  · rfl
  · rfl
  · exact congrArg (fun action : Act σ β => action.run.run s') (h s x vars' s' outcome)

theorem activation_storeContext (h : vars.receiver = some (.object object)) :
    activation vars (Eval.storeContext world entry) = (do
      storeContext world object entry
      return ((), vars)) := by
  rw [Eval.activation_storeContext h, storeContext]
  cases entry.storesContext <;> rfl

theorem activation_runInitializer (h : vars.receiver = some (.object object)) :
    activation vars (Eval.runInitializer world (entry.constructorEnv table settings) entry) = (do
      runIfExact world object table entry vars
      return ((), vars)) := by
  have table_eq : (entry.constructorEnv table settings).table = table := rfl
  unfold Eval.runInitializer runIfExact runUserInitializer
  rw [table_eq]
  cases resolved : table.resolveInitializer? entry with
  | none =>
    dsimp only
    rw [ite_self]
    rfl
  | some found =>
    have params : (entry.constructorEnv table settings).params = found.2.params := by
      simp only [TypeEntry.constructorEnv, initializerParams, resolved]
    dsimp only
    rw [Eval.activation_bind, Eval.activation_readReceiver h, pure_bind, params]
    by_cases exactly : (Value.object object).isExactly entry.name
    · simp only [Slot.toValue, exactly, if_true]
      exact Eval.activation_callOnReceiver h _ _
    · simp only [Slot.toValue, exactly]
      rfl

/-- **What one constructor does to its receiver.** The constructor of the base is called behind the
context and in front of the fields. -/
theorem activation_constructor (rooted : Rooted table entry) :
    activation (.enter (some (.object object)) args)
        ((Eval.constructor world (entry.constructorEnv table settings) entry).runFrom
          (numbers entry)).1 = (do
      storeContext world object entry
      callBase world object table entry args (table.base? entry)
      let vars ← storeOwn world object table settings numbers entry args
      runIfExact world object table entry vars
      return ((), vars)) := by
  have receiver : (Vars.enter (some (.object object)) args).receiver = some (.object object) := rfl
  have stored : activation (.enter (some (.object object)) args) ((Eval.initializeFields world
      (entry.constructorEnv table settings) entry.instanceFields).runFrom (numbers entry)).1 =
      activation (.enter (some (.object object)) args) ((Eval.storeFields world
        (entry.constructorEnv table settings) object entry.instanceFields).runFrom
          (numbers entry)).1 :=
    Eval.activation_congr fun s => Eval.outcome_initializeFields receiver _ s
  simp only [Eval.constructor, Numbered.runFrom_bind, Numbered.runFrom_pure]
  rw [Eval.activation_bind, activation_storeContext receiver]
  simp only [bind_assoc, pure_bind]
  rw [Eval.activation_bind, activation_constructBase rfl rooted]
  simp only [bind_assoc, pure_bind]
  rw [Eval.activation_bind, stored, storeOwn]
  simp only [bind_assoc, pure_bind]
  congr 1
  funext _
  congr 1
  funext _
  refine activation_bind_congr fun s x vars' s' ends => activation_runInitializer ?_
  exact (Eval.kept_storeFields ends).1.trans receiver

end Constructor

/-! ## All constructors of a type -/

section Line

variable {world : World σ} {object : ObjectRef} {table : Table} {settings : Settings}
  {numbers : TypeEntry → SiteId} {entry : TypeEntry} {line : List TypeEntry}

theorem storeLine_derived (base : TypeEntry) (bases : List TypeEntry) (args : List FrameArg) :
    storeLine world object table settings numbers (entry :: base :: bases) args = (do
      let _ ← storeLine world object table settings numbers (base :: bases)
        (forwardedArgs object table entry base args)
      storeOwn world object table settings numbers entry args) := rfl

/-- A call of the constructor of a type on the object is answered by what the constructor does. -/
def Constructs (world : World σ) (object : ObjectRef) (table : Table) (settings : Settings)
    (numbers : TypeEntry → SiteId) (entry : TypeEntry) : Prop :=
  ∀ args, world (.call (.constructor entry.name) (some (.object object)) args) = do
    let _ ← activation (.enter (some (.object object)) args)
      ((Eval.constructor world (entry.constructorEnv table settings) entry).runFrom
        (numbers entry)).1
    return .null

/-- **All constructors of a type**, one inside the other: the contexts come first, the fields follow
from the root on, and the test for the exact type stops all initializers but one. -/
theorem constructor_line (h : table.Line entry line) (rooted : ∀ t ∈ line, Rooted table t)
    (constructs : ∀ t ∈ line, Constructs world object table settings numbers t)
    (apart : ∀ t ∈ line.tail, (Value.object object).isExactly t.name = false)
    (args : List FrameArg) :
    world (.call (.constructor entry.name) (some (.object object)) args) = (do
      storeContexts world object line
      let vars ← storeLine world object table settings numbers line args
      runIfExact world object table entry vars
      return .null) := by
  induction h generalizing args with
  | @last entry none_above =>
    rw [constructs entry List.mem_cons_self, activation_constructor (rooted entry List.mem_cons_self),
      none_above]
    simp only [storeContexts, storeLine, callBase, List.head?_nil, bind_assoc, pure_bind]
  | @derived entry base rest above h ih =>
    obtain ⟨bases, rfl⟩ := h.eq_cons
    have ih := ih (fun t mem => rooted t (List.mem_cons_of_mem _ mem))
      (fun t mem => constructs t (List.mem_cons_of_mem _ mem))
      (fun t mem => apart t (List.mem_cons_of_mem _ mem))
    have skips (vars : Vars) : runIfExact world object table base vars = pure () := by
      rw [runIfExact, apart base List.mem_cons_self]
      rfl
    rw [constructs entry List.mem_cons_self, activation_constructor (rooted entry List.mem_cons_self),
      above]
    simp only [callBase, ask, ih, skips, bind_assoc, pure_bind]
    rw [storeLine_derived]
    simp only [storeContexts, bind_assoc]

end Line

/-! ## The arguments of the initializer -/

section Arguments

variable {world : World σ} {object : ObjectRef} {table : Table} {settings : Settings}
    {numbers : TypeEntry → SiteId} {entry : TypeEntry} {vars : Vars} {values : List FrameArg}
    {params : List Parameter}

/-- One value for every parameter, the context where it is asked for. -/
def Fits (params : List Parameter) (values : List FrameArg) : Prop :=
  List.Forall₂ (fun param value => param.isContext = true → value = .context) params values

/-- An action behind another one begins where that one ends. -/
theorem exists_of_bind {α β : Type} {x : Act σ α} {k : α → Act σ β} {b : β} {s s' : σ}
    (h : (x >>= k).run.run s = some (.ok b, s')) :
    ∃ a s₁, x.run.run s = some (.ok a, s₁) ∧ (k a).run.run s₁ = some (.ok b, s') := by
  change (x.run.run s).bind _ = _ at h
  rcases first : x.run.run s with _ | ⟨_ | a, s₁⟩
  all_goals rw [first] at h
  · cases h
  · cases h
  · exact ⟨a, s₁, rfl, h⟩

/-- Where no field of the type assigns a parameter, the parameters stay as they are. -/
theorem args_storeLine (spares : Eval.SpareParameters (entry.constructorEnv table settings)
      entry.instanceFields) {bases : List TypeEntry} {args : List FrameArg} {s s' : σ}
    (ends : (storeLine world object table settings numbers (entry :: bases) args).run.run s =
      some (.ok vars, s')) : vars.args = (Vars.enter (some (.object object)) args).args := by
  have own {s : σ} (ends : (storeOwn world object table settings numbers entry args).run.run s =
      some (.ok vars, s')) : vars.args = (Vars.enter (some (.object object)) args).args := by
    obtain ⟨r, s₁, stored, ends⟩ := exists_of_bind ends
    cases ends
    rw [Eval.run_activation] at stored
    rcases outcome : ((Eval.storeFields world _ object entry.instanceFields).runFrom
      (numbers entry)).1.outcome (.enter (some (.object object)) args) s with _ | ⟨_ | _, vars', _⟩
    all_goals
      rw [outcome] at stored
      cases stored
    exact (Eval.kept_storeFields outcome).2 spares
  unfold storeLine at ends
  cases base : bases.head? with
  | none =>
    rw [base] at ends
    exact own ends
  | some _ =>
    rw [base] at ends
    obtain ⟨_, _, -, ends⟩ := exists_of_bind ends
    exact own ends

theorem map_toArg_passed (fits : Fits params values) (index : Nat)
    (h : ∀ n value, values[n]? = some value → vars.args (index + n + 1) = Slot.ofArg value) :
    (passed vars index params).map Slot.toArg = values := by
  induction fits generalizing index with
  | nil => rfl
  | @cons param value params values first _ ih =>
    have rest := ih (index + 1) fun n value there => by
      rw [← h (n + 1) value there]
      congr 1
      omega
    have own : (vars.args (index + 1)).toArg = value := by
      rw [h 0 value rfl]
      cases value <;> rfl
    rw [passed, List.map_cons, rest]
    cases context : param.isContext with
    | true => rw [if_pos rfl, first context]; rfl
    | false => rw [if_neg Bool.false_ne_true, own]

/-- Parameters that are as they were on entry are passed on as they came. -/
theorem withContext_passed {receiver : Value} (fits : Fits params values)
    (h : vars.args = (Vars.enter receiver (.context :: values)).args) :
    withContext (passed vars 0 params) = .context :: values := by
  refine congrArg (FrameArg.context :: ·) (map_toArg_passed fits 0 fun n value there => ?_)
  rw [h, Nat.zero_add]
  simp only [Vars.enter, List.getElem?_cons_succ, there, Option.map_some, Option.getD_some]

end Arguments

/-! ## Worlds that answer alike -/

section Worlds

variable {world world' : World σ} {P : σ → Prop} {object : ObjectRef} {table : Table}
  {settings : Settings} {numbers : TypeEntry → SiteId} {entry : TypeEntry} {α β : Type}

/-- Where the property holds, both actions come to the same, and it holds behind them. -/
structure AlikeOn (P : σ → Prop) (x x' : Act σ α) : Prop where
  outcome : ∀ s, P s → x'.run.run s = x.run.run s
  keeps : ∀ {s r s'}, P s → x.run.run s = some (r, s') → P s'

theorem alikeOn_pure (a : α) : AlikeOn P (pure a : Act σ α) (pure a) where
  outcome _ _ := rfl
  keeps h := by
    rintro ⟨⟩
    exact h

theorem AlikeOn.bind {x x' : Act σ α} {k k' : α → Act σ β} (h : AlikeOn P x x')
    (h' : ∀ a, AlikeOn P (k a) (k' a)) : AlikeOn P (x >>= k) (x' >>= k') where
  outcome s holds := by
    change (x'.run.run s).bind _ = (x.run.run s).bind _
    rw [h.outcome s holds]
    rcases first : x.run.run s with _ | ⟨_ | a, s'⟩
    · rfl
    · rfl
    · exact (h' a).outcome s' (h.keeps holds first)
  keeps {s r s'} holds ends := by
    change (x.run.run s).bind _ = some (r, s') at ends
    rcases first : x.run.run s with _ | ⟨_ | a, s''⟩
    · rw [first] at ends
      cases ends
    · rw [first] at ends
      cases ends
      exact h.keeps holds first
    · rw [first] at ends
      exact (h' a).keeps (h.keeps holds first) ends

theorem alikeOn_ask (h : world.AlikeOn world' P) (r : Request) :
    AlikeOn P (ask world r) (ask world' r) :=
  have answered : AlikeOn P (world r) (world' r) := ⟨h.answers r, h.keeps⟩
  answered.bind fun _ => alikeOn_pure _

theorem alikeOn_activation {spared : Prop} {m m' : Eval σ α} (h : Eval.Alike P spared m m')
    (vars : Vars) : AlikeOn P (activation vars m) (activation vars m') where
  outcome s holds := by rw [Eval.run_activation, Eval.run_activation, h.outcome vars s holds]
  keeps {s r s'} holds ends := by
    rw [Eval.run_activation] at ends
    rcases first : m.outcome vars s with _ | ⟨_ | x, vars', s''⟩
    all_goals
      rw [first] at ends
      cases ends
    all_goals exact (h.keeps holds first).1

theorem alikeOn_storeOwn (h : world.AlikeOn world' P) (args : List FrameArg) :
    AlikeOn P (storeOwn world object table settings numbers entry args)
      (storeOwn world' object table settings numbers entry args) := by
  have fields : Numbered.Related (Eval.Alike P False)
      (Eval.storeFields world (entry.constructorEnv table settings) object entry.instanceFields)
      (Eval.storeFields world' (entry.constructorEnv table settings) object entry.instanceFields) :=
    Eval.alike_storeFields h False.elim
  exact (alikeOn_activation (fields _).1 _).bind fun _ => alikeOn_pure _

theorem alikeOn_storeLine (h : world.AlikeOn world' P) (line : List TypeEntry)
    (args : List FrameArg) :
    AlikeOn P (storeLine world object table settings numbers line args)
      (storeLine world' object table settings numbers line args) := by
  induction line generalizing args with
  | nil => exact alikeOn_pure _
  | cons entry bases ih =>
    unfold storeLine
    cases bases.head? with
    | none => exact alikeOn_storeOwn h args
    | some base => exact (ih _).bind fun _ => alikeOn_storeOwn h args

theorem alikeOn_runUserInitializer (h : world.AlikeOn world' P) (vars : Vars) :
    AlikeOn P (runUserInitializer world object table entry vars)
      (runUserInitializer world' object table entry vars) := by
  unfold runUserInitializer
  split
  · exact alikeOn_ask h _
  · exact alikeOn_pure _

end Worlds

end Construction

end StackScript
