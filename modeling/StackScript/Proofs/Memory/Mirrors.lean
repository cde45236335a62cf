import StackScript.Memory.Basic
import StackScript.Proofs.Machine.Mirrors

/-!
# Contexts that mirror each other

Two memories may hold the same context, but for the objects in it and for what else there is in the
memories. The operations on the context lead to such memories again. Actions mirror each other if
they lead to such memories wherever the first of them ends, with results that mirror each other;
new objects may come to stand for each other on the way.

## Main definitions

* `Fields.Mirrors`, `Context.Mirrors`: fields and contexts whose values mirror each other
* `RunsMirror`: what one action comes to, the other one comes to as well

## Main results

* one lemma for each operation on a context
* `RunsMirror.bind`, `RunsMirror.boundStatics`: actions one behind the other, and accesses to static
  fields of a context
-/

namespace StackScript

variable {Given : RuntimeType → Prop} {p q : Pairing Given}

/-! ## Entries by their keys -/

section Keyed

variable {α β : Type} {R : α → β → Prop} {xs : List (String × α)} {ys : List (String × β)}

/-- Entries of one key with related values. -/
abbrev Keyed (R : α → β → Prop) (x : String × α) (y : String × β) : Prop := x.1 = y.1 ∧ R x.2 y.2

theorem rel_find? (h : List.Forall₂ (Keyed R) xs ys) (key : String) :
    Option.Rel (Keyed R) (xs.find? fun (other, _) => other == key)
      (ys.find? fun (other, _) => other == key) := by
  induction h with
  | nil => exact .none
  | cons first _ ih =>
    rw [List.find?_cons, List.find?_cons]
    dsimp only
    rw [first.1]
    split
    · exact .some first
    · exact ih

/-- A new entry takes the place of an old one of its key. -/
theorem forall₂_replace (h : List.Forall₂ (Keyed R) xs ys) (key : String) {a : α} {b : β}
    (hab : R a b) :
    List.Forall₂ (Keyed R) ((key, a) :: xs.filter fun (other, _) => other != key)
      ((key, b) :: ys.filter fun (other, _) => other != key) := by
  refine .cons ⟨rfl, hab⟩ ?_
  induction h with
  | nil => exact .nil
  | cons first _ ih =>
    simp only [List.filter_cons, first.1]
    split
    · exact .cons first ih
    · exact ih

end Keyed

/-! ## Fields -/

/-- Fields of the same names with values that mirror each other. -/
def Fields.Mirrors (p : Pairing Given) (fields fields' : Fields) : Prop :=
  List.Forall₂ (Keyed (Value.Mirrors p)) fields.entries fields'.entries

namespace Fields.Mirrors

variable {fields fields' : Fields}

theorem empty : Fields.Mirrors p .empty .empty := .nil

theorem mono (h : fields.Mirrors p fields') (le : p ≤ q) : fields.Mirrors q fields' :=
  List.Forall₂.imp (fun _ _ entry => ⟨entry.1, entry.2.mono le⟩) h

theorem get (h : fields.Mirrors p fields') (name : String) :
    (fields.get name).Mirrors p (fields'.get name) :=
  rel_getD (rel_map (rel_find? h name) fun _ _ => And.right) .null

theorem set (h : fields.Mirrors p fields') (name : String) {v w : Value} (hv : v.Mirrors p w) :
    (fields.set name v).Mirrors p (fields'.set name w) := by
  obtain ⟨xs⟩ := fields
  obtain ⟨ys⟩ := fields'
  change List.Forall₂ _ xs ys at h
  change List.Forall₂ _ (insert name v xs) (insert name w ys)
  induction h with
  | nil => exact .cons ⟨rfl, hv⟩ .nil
  | @cons x y xs ys first rest ih =>
    obtain ⟨other, old⟩ := x
    obtain ⟨other', old'⟩ := y
    obtain ⟨rfl, values⟩ := first
    unfold insert
    split
    · exact .cons ⟨rfl, hv⟩ rest
    · exact .cons ⟨rfl, values⟩ ih

end Fields.Mirrors

/-! ## Contexts -/

/-- Static fields of one type that mirror each other. -/
structure Holder.Mirrors (p : Pairing Given) (holder holder' : Holder) : Prop where
  typeName : holder.typeName = holder'.typeName
  fields : holder.fields.Mirrors p holder'.fields
  failure : Option.Rel (DispatchError.Mirrors p) holder.failure holder'.failure

/-- Contexts with the same functions and the same output. -/
structure Context.Mirrors (p : Pairing Given) (context context' : Context) : Prop where
  functions : context.functions = context'.functions
  holders : ArraysAgree (Keyed (Holder.Mirrors p)) context.holders context'.holders
  output : context.output = context'.output

/-- What accesses meet mirrors each other. -/
inductive Admission.Mirrors (p : Pairing Given) : Admission → Admission → Prop where
  | granted : Mirrors p .granted .granted
  | refused {e e'} : e.Mirrors p e' → Mirrors p (.refused e) (.refused e')
  | first : Mirrors p .first .first

theorem Holder.Mirrors.mono {holder holder' : Holder} (h : holder.Mirrors p holder')
    (le : p ≤ q) : holder.Mirrors q holder' where
  typeName := h.typeName
  fields := h.fields.mono le
  failure := rel_mono h.failure fun _ _ error => error.mono le

namespace Context

variable (context : Context)

theorem functions_enterStatics (typeName : String) :
    (context.enterStatics typeName).2.2.functions = context.functions := by
  unfold enterStatics
  split <;> rfl

theorem functions_setStatic (id : HolderId) (field : String) (value : Value) :
    (context.setStatic id field value).functions = context.functions := by
  unfold setStatic
  split <;> rfl

theorem functions_leaveStatics (id : HolderId) (outcome : Except DispatchError Unit) :
    (context.leaveStatics id outcome).functions = context.functions := by
  unfold leaveStatics
  split <;> rfl

end Context

namespace Context.Mirrors

variable {context context' : Context}

theorem new : Context.Mirrors p .new .new := ⟨rfl, .empty, rfl⟩

theorem mono (h : context.Mirrors p context') (le : p ≤ q) : context.Mirrors q context' where
  functions := h.functions
  holders := h.holders.mono fun _ _ entry => ⟨entry.1, entry.2.mono le⟩
  output := h.output

theorem function? (h : context.Mirrors p context') (name : String) :
    context.function? name = context'.function? name := by
  simp only [Context.function?, h.functions]

theorem echo (h : context.Mirrors p context') (text : String) :
    (context.echo text).Mirrors p (context'.echo text) :=
  ⟨h.functions, h.holders, by simp only [Context.echo, h.output]⟩

theorem declare (h : context.Mirrors p context') (name : String) (routine : RoutineRef) :
    ResultsMirror p (Context.Mirrors p) (context.declare name routine)
      (context'.declare name routine) := by
  unfold Context.declare Context.declares
  rw [h.function?]
  split
  · exact .error (.same nofun)
  · exact .ok ⟨by rw [h.functions], h.holders, h.output⟩

theorem holder? (h : context.Mirrors p context') (id : HolderId) :
    Option.Rel (Holder.Mirrors p) (context.holder? id) (context'.holder? id) :=
  rel_map (h.holders id) fun _ _ entry => entry.2

theorem holderId? (h : context.Mirrors p context') (typeName : String) :
    context.holderId? typeName = context'.holderId? typeName := by
  have keys : context.holders.map (·.1) = context'.holders.map (·.1) := by
    refine Array.ext_getElem? fun i => ?_
    have entry := h.holders i
    rw [Array.getElem?_map, Array.getElem?_map]
    generalize context.holders[i]? = x at entry ⊢
    generalize context'.holders[i]? = y at entry ⊢
    cases entry with
    | some entries => exact congrArg some entries.1
    | none => rfl
  have found (holders : Array (String × Holder)) :
      (holders.findIdx? fun entry => entry.1 == nameKey typeName) =
        (holders.map (·.1)).findIdx? (· == nameKey typeName) := by
    rw [Array.findIdx?_map]
    rfl
  exact (found _).trans (keys ▸ (found _).symm)

theorem setHolder (h : context.Mirrors p context') (id : HolderId) {holder holder' : Holder}
    (holders : holder.Mirrors p holder') :
    (context.setHolder id holder).Mirrors p (context'.setHolder id holder') :=
  ⟨h.functions, h.holders.modify id fun _ _ entry => ⟨entry.1, holders⟩, h.output⟩

theorem getStatic (h : context.Mirrors p context') (id : HolderId) (field : String) :
    (context.getStatic id field).Mirrors p (context'.getStatic id field) := by
  have holder := h.holder? id
  unfold Context.getStatic
  generalize context.holder? id = x at holder ⊢
  generalize context'.holder? id = y at holder ⊢
  cases holder with
  | some holders => exact holders.fields.get field
  | none => exact .null

theorem setStatic (h : context.Mirrors p context') (id : HolderId) (field : String) {v w : Value}
    (values : v.Mirrors p w) :
    (context.setStatic id field v).Mirrors p (context'.setStatic id field w) := by
  have holder := h.holder? id
  unfold Context.setStatic
  generalize context.holder? id = x at holder ⊢
  generalize context'.holder? id = y at holder ⊢
  cases holder with
  | some holders =>
    exact h.setHolder id ⟨holders.typeName, holders.fields.set field values, holders.failure⟩
  | none => exact h

theorem enterStatics (h : context.Mirrors p context') (typeName : String) :
    Admission.Mirrors p (context.enterStatics typeName).1 (context'.enterStatics typeName).1 ∧
      (context.enterStatics typeName).2.1 = (context'.enterStatics typeName).2.1 ∧
      (context.enterStatics typeName).2.2.Mirrors p (context'.enterStatics typeName).2.2 := by
  unfold Context.enterStatics
  rw [h.holderId? typeName]
  cases context'.holderId? typeName with
  | none =>
    exact ⟨.first, h.holders.size_eq, h.functions,
      h.holders.push ⟨rfl, rfl, .empty, .none⟩, h.output⟩
  | some id =>
    refine ⟨?_, rfl, h⟩
    have holder := h.holder? id
    dsimp only
    generalize context.holder? id = x at holder ⊢
    generalize context'.holder? id = y at holder ⊢
    cases holder with
    | none => exact .granted
    | @some x y holders =>
      have failure := holders.failure
      unfold Holder.admission
      dsimp only
      generalize x.failure = e at failure ⊢
      generalize y.failure = e' at failure ⊢
      cases failure with
      | none => exact .granted
      | some errors => exact .refused errors

theorem leaveStatics (h : context.Mirrors p context') (id : HolderId)
    {outcome outcome' : Except DispatchError Unit}
    (outcomes : ResultsMirror p (fun _ _ => True) outcome outcome') :
    (context.leaveStatics id outcome).Mirrors p (context'.leaveStatics id outcome') := by
  cases outcomes with
  | ok => exact h
  | error errors =>
    have holder := h.holder? id
    unfold Context.leaveStatics
    generalize context.holder? id = x at holder ⊢
    generalize context'.holder? id = y at holder ⊢
    cases holder with
    | none => exact h
    | some holders => exact h.setHolder id ⟨holders.typeName, holders.fields, .some errors⟩

end Context.Mirrors

/-! ## Actions -/

/-- The outcome of an initializer is its error or its result. -/
theorem outcomeOf_eq_attempt (init : Run Unit) : outcomeOf init = Run.attempt init := by
  refine ExceptT.ext (funext fun memory => ?_)
  change ((init.run memory).bind _).bind _ = _
  simp only [Run.attempt, ExceptT.run_mk]
  cases init.run memory with
  | none => rfl
  | some r =>
    obtain ⟨outcome, after⟩ := r
    cases outcome <;> rfl

section Actions

variable {α β γ δ : Type} {W : Pairing Given → Memory → Memory → Prop} {memory memory' : Memory}
  {R : Pairing Given → α → β → Prop} {S : Pairing Given → γ → δ → Prop} {x : Run α} {y : Run β}

/-- From two memories: where the first action ends the second one ends too, with a result that
mirrors that of the first, and the memories are related again. -/
def RunsMirrorAt (W : Pairing Given → Memory → Memory → Prop) (p : Pairing Given)
    (R : Pairing Given → α → β → Prop) (memory memory' : Memory) (x : Run α) (y : Run β) : Prop :=
  ∀ outcome after, x.run memory = some (outcome, after) → ∃ q outcome' after', p ≤ q ∧
    y.run memory' = some (outcome', after') ∧ ResultsMirror q (R q) outcome outcome' ∧
    W q after after'

/-- **The second action does what the first one does** wherever the memories are related, and where
the first one ends. -/
def RunsMirror (W : Pairing Given → Memory → Memory → Prop) (p : Pairing Given)
    (R : Pairing Given → α → β → Prop) (x : Run α) (y : Run β) : Prop :=
  ∀ memory memory', W p memory memory' → RunsMirrorAt W p R memory memory' x y

namespace RunsMirror

theorem pure {a : α} {b : β} (h : R p a b) : RunsMirror W p R (pure a) (pure b) := by
  rintro memory memory' related outcome after ⟨⟩
  exact ⟨p, _, _, p.le_refl, rfl, .ok h, related⟩

theorem throw {e e' : DispatchError} (h : e.Mirrors p e') :
    RunsMirror W p R (MonadExcept.throw e) (MonadExcept.throw e') := by
  rintro memory memory' related outcome after ⟨⟩
  exact ⟨p, _, _, p.le_refl, rfl, .error h, related⟩

theorem failed (failure : Failure) :
    RunsMirror W p R (MonadExcept.throw (DispatchError.failed failure))
      (MonadExcept.throw (DispatchError.failed failure)) := throw (.failed failure)

theorem ofExcept {x : Except DispatchError α} {y : Except DispatchError β}
    (h : ResultsMirror p (R p) x y) :
    RunsMirror W p R (MonadExcept.ofExcept x) (MonadExcept.ofExcept y) := by
  cases h with
  | ok results => exact pure results
  | error errors => exact throw errors

/-- An action that never ends is mirrored by every other. -/
theorem exhausted : RunsMirror W p R Run.exhausted y := by
  rintro memory memory' related outcome after ⟨⟩

theorem bindAt {f : α → Run γ} {g : β → Run δ} (h : RunsMirrorAt W p R memory memory' x y)
    (h' : ∀ q, p ≤ q → ∀ a b, R q a b → RunsMirror W q S (f a) (g b)) :
    RunsMirrorAt W p S memory memory' (x >>= f) (y >>= g) := by
  intro outcome after ends
  change ((x.run memory).bind _) = _ at ends
  change ∃ q outcome' after', p ≤ q ∧ ((y.run memory').bind _) = _ ∧ _
  cases first : x.run memory with
  | none =>
    rw [first] at ends
    cases ends
  | some r =>
    obtain ⟨result, between⟩ := r
    obtain ⟨q, result', between', le, mirrored, results, related⟩ := h result between first
    rw [first] at ends
    rw [mirrored]
    cases results with
    | error errors =>
      cases ends
      exact ⟨q, _, _, le, rfl, .error errors, related⟩
    | ok results =>
      obtain ⟨r, outcome', after', le', ends', outcomes, related⟩ :=
        h' q le _ _ results between between' related outcome after ends
      exact ⟨r, outcome', after', Pairing.le_trans le le', ends', outcomes, related⟩

theorem bind {f : α → Run γ} {g : β → Run δ} (h : RunsMirror W p R x y)
    (h' : ∀ q, p ≤ q → ∀ a b, R q a b → RunsMirror W q S (f a) (g b)) :
    RunsMirror W p S (x >>= f) (y >>= g) :=
  fun memory memory' related => bindAt (h memory memory' related) h'

/-- What the actions read of the memories is related. -/
theorem get {f : Memory → Run γ} {g : Memory → Run δ}
    (h : ∀ memory memory', W p memory memory' →
      RunsMirrorAt W p S memory memory' (f memory) (g memory')) :
    RunsMirror W p S (getThe Memory >>= f) (getThe Memory >>= g) := h

/-- The memories are replaced by such as are related, and the actions go on. -/
theorem setAt {x : Run γ} {y : Run δ} {next next' : Memory} (le : p ≤ q) (related : W q next next')
    (h : RunsMirror W q S x y) :
    RunsMirrorAt W p S memory memory' (MonadStateOf.set next >>= fun _ => x)
      (MonadStateOf.set next' >>= fun _ => y) := by
  intro outcome after ends
  obtain ⟨r, outcome', after', le', ends', outcomes, related⟩ :=
    h next next' related outcome after ends
  exact ⟨r, outcome', after', Pairing.le_trans le le', ends', outcomes, related⟩

/-- Changes of the memories that lead from related memories to such. -/
theorem modify {f g : Memory → Memory}
    (h : ∀ memory memory', W p memory memory' → W p (f memory) (g memory')) :
    RunsMirror W p (fun _ _ _ => True) (modifyThe Memory f) (modifyThe Memory g) := by
  rintro memory memory' related outcome after ⟨⟩
  exact ⟨p, _, _, p.le_refl, rfl, .ok trivial, h _ _ related⟩

theorem attempt (h : RunsMirror W p R x y) :
    RunsMirror W p (fun q => ResultsMirror q (R q)) (Run.attempt x) (Run.attempt y) := by
  intro memory memory' related outcome after ends
  simp only [Run.attempt, ExceptT.run_mk] at ends ⊢
  cases first : x.run memory with
  | none =>
    rw [first] at ends
    cases ends
  | some r =>
    obtain ⟨result, between⟩ := r
    obtain ⟨q, result', between', le, mirrored, results, related⟩ :=
      h memory memory' related result between first
    rw [first] at ends
    cases ends
    rw [mirrored]
    exact ⟨q, _, _, le, rfl, .ok results, related⟩

theorem outcomeOf {init init' : Run Unit} (h : RunsMirror W p (fun _ _ _ => True) init init') :
    RunsMirror W p (fun q => ResultsMirror q fun _ _ => True) (StackScript.outcomeOf init)
      (StackScript.outcomeOf init') := by
  rw [outcomeOf_eq_attempt, outcomeOf_eq_attempt]
  exact h.attempt

theorem discard (h : RunsMirror W p R x y) :
    RunsMirror W p (fun _ _ _ => True) (discard x) (discard y) :=
  h.bind fun _ _ _ _ _ => pure trivial

end RunsMirror

end Actions

/-! ## Static fields of a context -/

/-- A context is replaced in both memories by such as mirror each other and know the same functions
as before. -/
def KeepsContext (W : Pairing Given → Memory → Memory → Prop) (id : ContextId) : Prop :=
  ∀ {p memory memory'}, W p memory memory' →
    (memory.context id).Mirrors p (memory'.context id) ∧
      ∀ context context', context.Mirrors p context' →
        context.functions = (memory.context id).functions →
          W p (memory.setContext id context) (memory'.setContext id context')

theorem RunsMirror.boundStatics {W : Pairing Given → Memory → Memory → Prop} {id : ContextId}
    (keeps : KeepsContext W id) (typeName : String) {init init' : HolderId → Run Unit}
    (h : ∀ n, RunsMirror W p (fun _ _ _ => True) (init n) (init' n)) :
    RunsMirror W p (fun _ n n' => n = n') (StackScript.boundStatics id typeName init)
      (StackScript.boundStatics id typeName init') := by
  refine get fun memory memory' related => ?_
  have functions := (memory.context id).functions_enterStatics typeName
  obtain ⟨admissions, numbers, entered⟩ := (keeps related).1.enterStatics typeName
  generalize (memory.context id).enterStatics typeName = x at admissions numbers entered functions ⊢
  generalize (memory'.context id).enterStatics typeName = y at admissions numbers entered ⊢
  obtain ⟨admission, n, context⟩ := x
  obtain ⟨admission', n', context'⟩ := y
  dsimp only at admissions numbers entered functions ⊢
  subst numbers
  cases admissions with
  | granted => exact pure rfl _ _ related
  | refused errors => exact throw errors _ _ related
  | first =>
    refine setAt p.le_refl ((keeps related).2 _ _ entered functions) ((h n).outcomeOf.bind
      fun q _ outcome outcome' outcomes => (modify fun memory _ related =>
        (keeps related).2 _ _ ((keeps related).1.leaveStatics n outcomes)
          ((memory.context id).functions_leaveStatics n outcome)).bind fun r le _ _ _ => ?_)
    cases outcomes with
    | ok => exact pure rfl
    | error errors => exact throw (errors.mono le)

end StackScript
