import StackScript.Proofs.Evaluation.Constructors
import StackScript.Proofs.Evaluation.Locality

/-!
# The activation of a body on an object

What a body does on entry depends on its receiver and its arguments alone: its variables are its own,
and what is left of it is what it asks of the world. The parts of a constructor are such activations,
and they ask of the world what is to be done with the receiver.

## Main definitions

* `Act`: what can be done in a world
* `Vars.enter`: the variables of a body on entry
* `Eval.activation`: a computation that starts with given variables, as an action on the world
* `Eval.storeFields`: the initial values of fields, stored in an object

## Main results

* `Eval.outcome_initializeFields`: the fields of the receiver are stored in their order
* `Eval.alike_storeFields`: fields are stored alike in worlds that answer alike
-/

namespace StackScript

variable {σ α β : Type}

/-- An action on a world. It fails with an error, or never ends. -/
abbrev Act (σ : Type) := ExceptT DispatchError (StateT σ Option)

/-- The variables of a body on entry. -/
def Vars.enter (receiver : Option Value) (args : List FrameArg) : Vars where
  receiver := receiver
  args := fun n => (args[n]?.map Slot.ofArg).getD .unset
  locals := fun _ => .unset
  result := .unset

@[simp] theorem Vars.receiver_enter (receiver : Option Value) (args : List FrameArg) :
    (Vars.enter receiver args).receiver = receiver := rfl

namespace Eval

/-- What is left of an outcome on the way out of an activation: a value, the variables and the state
of the world, or an error and the state. -/
def leaving : Option (Except DispatchError α × Vars × σ) → Option (Except DispatchError (α × Vars) × σ)
  | some (.ok x, vars, s) => some (.ok (x, vars), s)
  | some (.error e, _, s) => some (.error e, s)
  | none => none

/-- What a computation does in the world when it starts with given variables, and the variables that
it leaves. -/
def activation (vars : Vars) (m : Eval σ α) : Act σ (α × Vars) :=
  ExceptT.mk fun s => leaving (m.outcome vars s)

section Activations

variable {vars : Vars} {m : Eval σ α} {world : World σ}

theorem run_activation (vars : Vars) (m : Eval σ α) (s : σ) :
    (activation vars m).run.run s = leaving (m.outcome vars s) := rfl

/-- Computations that come to the same are activations that do the same. -/
theorem activation_congr {m' : Eval σ α} (h : ∀ s, m'.outcome vars s = m.outcome vars s) :
    activation vars m' = activation vars m := by
  refine ExceptT.ext (StateT.ext fun s => ?_)
  rw [run_activation, run_activation, h]

theorem activation_pure (x : α) : activation (σ := σ) vars (pure x) = pure (x, vars) := rfl

theorem activation_vars : activation (σ := σ) vars Eval.vars = pure (vars, vars) := rfl

/-- **An activation of computations one behind the other.** -/
theorem activation_bind (m : Eval σ α) (k : α → Eval σ β) :
    activation vars (m >>= k) = (do
      let r ← activation vars m
      activation r.2 (k r.1)) := by
  refine ExceptT.ext (StateT.ext fun s => ?_)
  change (activation vars (m >>= k)).run.run s = ((activation vars m).run.run s).bind _
  rw [run_activation, run_activation, outcome_bind]
  rcases m.outcome vars s with _ | ⟨_ | _, _, _⟩ <;> rfl

theorem activation_request (r : Request) :
    activation vars (request world r) = (do return (← world r, vars)) := by
  refine ExceptT.ext (StateT.ext fun s => ?_)
  change (activation vars (request world r)).run.run s = ((world r).run.run s).bind _
  rw [run_activation, outcome_request]
  rcases (world r).run.run s with _ | ⟨_ | _, _⟩ <;> rfl

/-- A value that is not needed is left out. -/
theorem discard_bind (m : Eval σ α) (k : Unit → Eval σ β) :
    (discard m >>= k) = m >>= fun _ => k () := by
  change (m >>= fun _ => pure ()) >>= k = _
  rw [bind_assoc]
  simp only [pure_bind]

theorem activation_discard (m : Eval σ α) :
    activation vars (discard m) = (do return ((), (← activation vars m).2)) :=
  activation_bind m fun _ => pure ()

theorem activation_readReceiver {receiver : Value} (h : vars.receiver = some receiver) :
    activation (σ := σ) vars readReceiver = pure (.value receiver, vars) := by
  rw [readReceiver, activation_bind, activation_vars, pure_bind, h]
  rfl

end Activations

/-! ## Actions on an object -/

section Objects

variable (world : World σ) (env : BodyEnv) (object : ObjectRef)

/-- A request whose answer is not needed. -/
def ask (r : Request) : Act σ Unit := do
  let _ ← world r

/-- The initial values of fields are stored in an object, one after the other. -/
def storeFields : List Field → Numbered (Eval σ Unit)
  | [] => return (return ())
  | field :: rest => do
    let value ← initialValue world env field
    let others ← storeFields rest
    return do
      let value ← value
      let _ ← request world (.storeField object field.name value.toValue)
      others

end Objects

section Parts

variable {world : World σ} {env : BodyEnv} {object : ObjectRef} {vars : Vars}

theorem activation_ask (r : Request) :
    activation vars (discard (request world r)) = (do
      ask world r
      return ((), vars)) := by
  rw [activation_discard, activation_request, ask]
  simp only [bind_assoc, pure_bind]

theorem writeField_object (field : String) (value : Slot) :
    writeField world field (.value (.object object)) value =
      discard (request world (.storeField object field value.toValue)) := rfl

variable (h : vars.receiver = some (.object object))
include h

theorem activation_storeContext (entry : TypeEntry) :
    activation vars (storeContext world entry) = (do
      if entry.storesContext then
        ask world (.storeField object contextField (.string Slot.contextMark))
      return ((), vars)) := by
  unfold storeContext
  cases entry.storesContext with
  | true =>
    rw [if_pos rfl, if_pos rfl, activation_bind, activation_readReceiver h, pure_bind,
      writeField_object, activation_ask]
    rfl
  | false => rfl

theorem activation_callOnReceiver (body : BodyName) (values : Vars → List Slot) :
    activation vars (callOnReceiver world body values) = (do
      ask world (.call body (some (.object object)) (withContext (values vars)))
      return ((), vars)) := by
  unfold callOnReceiver ofVars
  rw [activation_bind, activation_readReceiver h, pure_bind, activation_bind, activation_bind,
    activation_vars, pure_bind, activation_pure, pure_bind, activation_ask]
  rfl

end Parts

/-! ## Fields -/

section Fields

variable {world world' : World σ} {P : σ → Prop} {spared : Prop} {env : BodyEnv}
  {object : ObjectRef} {fields : List Field}

/-- No parameter is assigned by the initializers of fields. -/
def SpareParameters (env : BodyEnv) (fields : List Field) : Prop :=
  ∀ field ∈ fields, ∀ initializer ∈ field.initializer, initializer.Spares env

theorem alike_initialValue (h : world.AlikeOn world' P) (field : Field)
    (spares : spared → ∀ initializer ∈ field.initializer, initializer.Spares env) :
    Numbered.Related (Alike P spared) (initialValue world env field)
      (initialValue world' env field) := by
  unfold initialValue
  cases present : field.initializer with
  | some initializer =>
    exact alike_meaning h initializer fun holds => spares holds initializer present
  | none => exact .pure (alike_pure _)

theorem alike_storeFields (h : world.AlikeOn world' P)
    (spares : spared → SpareParameters env fields) :
    Numbered.Related (Alike P spared) (storeFields world env object fields)
      (storeFields world' env object fields) := by
  induction fields with
  | nil => exact .pure (alike_pure _)
  | cons field rest ih =>
    have first := alike_initialValue h field fun holds => spares holds field List.mem_cons_self
    have ih := ih fun holds other mem => spares holds other (List.mem_cons_of_mem _ mem)
    exact first.bind fun _ _ hv => ih.bind fun _ _ hr => .pure
      (hv.bind fun x => (alike_request h _).bind fun _ => hr)

/-- The initial value of a field does not change what the receiver is. -/
theorem receiver_initialValue {field : Field} {n : SiteId} {vars vars' : Vars} {s s' : σ}
    {r : Except DispatchError Slot}
    (h : ((initialValue world env field).runFrom n).1.outcome vars s = some (r, vars', s')) :
    vars'.receiver = vars.receiver :=
  ((alike_initialValue (alikeOn_refl world) field id n).1.keeps trivial h).2.1

/-- Fields that are stored do not change what the receiver is, nor the parameters unless one is
assigned. -/
theorem kept_storeFields {n : SiteId} {vars vars' : Vars} {s s' : σ} {r : Except DispatchError Unit}
    (h : ((storeFields world env object fields).runFrom n).1.outcome vars s = some (r, vars', s')) :
    vars'.receiver = vars.receiver ∧ (SpareParameters env fields → vars'.args = vars.args) :=
  have kept := (alike_storeFields (alikeOn_refl world) id n).1.keeps trivial h
  ⟨kept.2.1, kept.2.2.2⟩

/-- **The fields of the receiver are stored in their order.** The initial values do not change what
the receiver is. -/
theorem outcome_initializeFields {vars : Vars} (h : vars.receiver = some (.object object))
    (n : SiteId) (s : σ) :
    ((initializeFields world env fields).runFrom n).1.outcome vars s =
      ((storeFields world env object fields).runFrom n).1.outcome vars s := by
  induction fields generalizing vars n s with
  | nil => rfl
  | cons field rest ih =>
    have receiver : (readReceiver : Eval σ Slot).outcome vars s =
        some (.ok (.value (.object object)), vars, s) := by
      rw [readReceiver, outcome_bind, outcome_vars]
      simp only [h, outcome_pure]
    simp only [initializeFields, storeFields, Numbered.runFrom_bind, Numbered.runFrom_pure]
    rw [outcome_bind, receiver]
    dsimp only
    rw [outcome_bind, outcome_bind]
    rcases first : ((initialValue world env field).runFrom n).1.outcome vars s
      with _ | ⟨_ | x, vars', s'⟩
    · rfl
    · rfl
    · have kept : vars'.receiver = some (.object object) :=
        (receiver_initialValue first).trans h
      dsimp only
      rw [writeField_object, discard_bind, outcome_bind, outcome_bind, outcome_request]
      rcases (world _).run.run s' with _ | ⟨_ | _, s''⟩
      · rfl
      · rfl
      · exact ih kept _ s''

end Fields

end Eval

end StackScript
