import StackScript.Proofs.Machine.Known
import StackScript.Proofs.Memory.Mirrors

/-!
# Memories that agree up to their caches

Two memories agree if they have the same objects, contexts, static fields and routines of the host,
and call sites of the same shapes. What the sites have in their caches is of no account, as long as
it comes from calls; and errors that are kept may show the name of a missing method in two
spellings. All values in the memories are known: they mirror each other, each object standing for
itself.

Two actions agree if they lead from memories that agree to such memories, and their outcomes agree.
Actions that are put together from actions that agree do so too.

## Main definitions

* `Memory.Agree`: memories that agree, and its parts `SharedStatics.Agree`, `Registry.Agree`
* `ValuesAgree`, `OutcomesAgree`: values and outcomes that agree
* `RunsAgree`: two actions agree

## Main results

* one lemma for each operation on a memory: it leads from memories that agree to such memories
* `RunsAgree.bind`: actions one behind the other
* `RunsAgree.ensureInitialized`, `RunsAgree.boundStatics`: accesses to static fields
-/

namespace StackScript

variable {types : TypeId → RuntimeType}

/-- The same known value twice. -/
abbrev ValuesAgree (types : TypeId → RuntimeType) : Value → Value → Prop := Value.Mirrors (.known types)

/-- Errors that are alike, and known. -/
abbrev DispatchError.Agree (types : TypeId → RuntimeType) : DispatchError → DispatchError → Prop :=
  DispatchError.Mirrors (.known types)

/-- Outcomes with results in a relation, or with errors that agree. -/
abbrev OutcomesAgree {α β : Type} (types : TypeId → RuntimeType) (R : α → β → Prop) :
    Except DispatchError α → Except DispatchError β → Prop := ResultsMirror (.known types) R

theorem valuesAgree_iff {v w : Value} : ValuesAgree types v w ↔ v = w ∧ v.Known types :=
  Value.mirrors_known

/-! ## Shared static fields -/

/-- States of initialization that agree. -/
inductive InitState.Agree (types : TypeId → RuntimeType) : InitState → InitState → Prop where
  | running : Agree types .running .running
  | done : Agree types .done .done
  | failed {e e'} : DispatchError.Agree types e e' → Agree types (.failed e) (.failed e')

theorem InitState.Agree.admission {state state' : InitState} (h : state.Agree types state') :
    state.admission.Mirrors (.known types) state'.admission := by
  cases h with
  | running => exact .granted
  | done => exact .granted
  | failed he => exact .refused he

theorem InitState.agree_ofOutcome {outcome outcome' : Except DispatchError Unit}
    (h : OutcomesAgree types (fun _ _ => True) outcome outcome') :
    (ofOutcome outcome).Agree types (ofOutcome outcome') := by
  cases h with
  | ok => exact .done
  | error he => exact .failed he

/-- Shared static fields that agree. -/
structure SharedStatics.Agree (types : TypeId → RuntimeType) (shared shared' : SharedStatics) :
    Prop where
  fields : List.Forall₂ (Keyed (Fields.Mirrors (.known types))) shared.fields shared'.fields
  states : List.Forall₂ (Keyed (InitState.Agree types)) shared.states shared'.states

namespace SharedStatics.Agree

variable {shared shared' : SharedStatics}

theorem empty : SharedStatics.Agree types .empty .empty := ⟨.nil, .nil⟩

theorem setState (h : shared.Agree types shared') (key : String) {state state' : InitState}
    (hstate : state.Agree types state') :
    (shared.setState key state).Agree types (shared'.setState key state') :=
  ⟨h.fields, forall₂_replace h.states key hstate⟩

theorem enter (h : shared.Agree types shared') (typeName : String) :
    (shared.enter typeName).1.Mirrors (.known types) (shared'.enter typeName).1 ∧
      (shared.enter typeName).2.Agree types (shared'.enter typeName).2 := by
  have : Option.Rel (InitState.Agree types) (shared.state? (nameKey typeName))
      (shared'.state? (nameKey typeName)) := rel_map (rel_find? h.states _) fun _ _ => And.right
  unfold SharedStatics.enter
  dsimp only
  generalize shared.state? (nameKey typeName) = x at this ⊢
  generalize shared'.state? (nameKey typeName) = y at this ⊢
  cases this with
  | some hxy => exact ⟨hxy.admission, h⟩
  | none => exact ⟨.first, h.setState _ .running⟩

theorem leave (h : shared.Agree types shared') (typeName : String)
    {outcome outcome' : Except DispatchError Unit}
    (houtcome : OutcomesAgree types (fun _ _ => True) outcome outcome') :
    (shared.leave typeName outcome).Agree types (shared'.leave typeName outcome') :=
  h.setState _ (InitState.agree_ofOutcome houtcome)

theorem fieldsOf (h : shared.Agree types shared') (typeName : String) :
    (shared.fieldsOf typeName).Mirrors (.known types) (shared'.fieldsOf typeName) := by
  have := rel_find? h.fields (nameKey typeName)
  unfold SharedStatics.fieldsOf
  revert this
  generalize List.find? _ shared.fields = x
  generalize List.find? _ shared'.fields = y
  rintro (⟨entry⟩ | _)
  · exact entry.2
  · exact .empty

theorem set (h : shared.Agree types shared') (typeName field : String) {v w : Value}
    (hv : ValuesAgree types v w) :
    (shared.set typeName field v).Agree types (shared'.set typeName field w) :=
  ⟨forall₂_replace h.fields _ ((h.fieldsOf typeName).set field hv), h.states⟩

end SharedStatics.Agree

/-! ## Call sites -/

/-- Sites of one shape, whatever calls they have served. -/
structure CallSite.Agree (types : TypeId → RuntimeType) (site site' : CallSite) : Prop where
  shape : site.shape = site'.shape
  reached : site.Reached types
  reached' : site'.Reached types

/-- Registries with sites of the same shapes. -/
def Registry.Agree (types : TypeId → RuntimeType) (registry registry' : Registry) : Prop :=
  List.Forall₂ (CallSite.Agree types) registry.sites registry'.sites

namespace Registry.Agree

variable {registry registry' : Registry}

theorem get? (h : registry.Agree types registry') (id : SiteId) :
    Option.Rel (CallSite.Agree types) (registry.get? id) (registry'.get? id) := by
  unfold Registry.get?
  unfold Registry.Agree at h
  generalize registry.sites = xs at h ⊢
  generalize registry'.sites = ys at h ⊢
  induction h with
  | nil => exact .none
  | @cons x y xs ys hxy hrest ih =>
    rw [List.find?_cons, List.find?_cons, hxy.shape]
    split
    · exact .some hxy
    · exact ih

/-- The site of a shape, and the registry that has it. -/
theorem site (h : registry.Agree types registry') (shape : SiteShape) :
    (registry.site shape).1.Agree types (registry'.site shape).1 ∧
      (registry.site shape).2.Agree types (registry'.site shape).2 := by
  have := h.get? shape.id
  unfold Registry.site
  generalize registry.get? shape.id = x at this ⊢
  generalize registry'.get? shape.id = y at this ⊢
  cases this with
  | some hxy => exact ⟨hxy, h⟩
  | none =>
    have hnew : (CallSite.new shape registry.capacity).Agree types
        (.new shape registry'.capacity) := ⟨rfl, .new _ _, .new _ _⟩
    exact ⟨hnew, List.rel_append h (.cons hnew .nil)⟩

theorem update (h : registry.Agree types registry') {site site' : CallSite}
    (hsite : site.Agree types site') :
    (registry.update site).Agree types (registry'.update site') := by
  refine List.rel_map (fun x y hxy => ?_) h
  rw [hxy.shape, hsite.shape]
  split
  · exact hsite
  · exact hxy

end Registry.Agree

/-! ## Routines of the host -/

/-- The values that a routine of the host returns or throws are known. -/
inductive Native.Known (types : TypeId → RuntimeType) : Native → Prop where
  | result {v} : v.Known types → Known types (.result v)
  | throwing {v} : v.Known types → Known types (.throwing v)
  | sequence {steps : List Native} : (∀ native ∈ steps, Known types native) →
      Known types (.sequence steps)
  | arguments : Known types .arguments
  | firstArgument : Known types .firstArgument
  | argumentCount : Known types .argumentCount
  | receiver : Known types .receiver
  | failing (text) : Known types (.failing text)
  | echo (text) : Known types (.echo text)
  | call (function) : Known types (.call function)

/-! ## Memories -/

/-- Memories that agree up to their caches, and to the letter case in errors that are kept. -/
structure Memory.Agree (types : TypeId → RuntimeType) (memory memory' : Memory) : Prop where
  objects : ArraysAgree (Fields.Mirrors (.known types)) memory.objects memory'.objects
  contexts : ArraysAgree (Context.Mirrors (.known types)) memory.contexts memory'.contexts
  shared : memory.shared.Agree types memory'.shared
  sites : memory.sites.Agree types memory'.sites
  natives : memory.natives = memory'.natives
  routines : ∀ native ∈ memory.natives, native.Known types

namespace Memory.Agree

variable {memory memory' : Memory}

theorem context (h : memory.Agree types memory') (id : ContextId) :
    (memory.context id).Mirrors (.known types) (memory'.context id) := rel_getD (h.contexts id) .new

theorem setContext (h : memory.Agree types memory') (id : ContextId) {context context' : Context}
    (hcontext : context.Mirrors (.known types) context') :
    (memory.setContext id context).Agree types (memory'.setContext id context') :=
  { h with contexts := h.contexts.set id hcontext }

theorem echo (h : memory.Agree types memory') (id : ContextId) (text : String) :
    (memory.echo id text).Agree types (memory'.echo id text) :=
  { h with contexts := h.contexts.modify id fun _ _ hxy => hxy.echo text }

theorem create (h : memory.Agree types memory') (type : RuntimeType) :
    (memory.create type).1 = (memory'.create type).1 ∧
      (memory.create type).2.Agree types (memory'.create type).2 :=
  ⟨by simp only [Memory.create, h.objects.size_eq], { h with objects := h.objects.push .empty }⟩

theorem fieldsOf (h : memory.Agree types memory') (object : ObjectRef) :
    (memory.fieldsOf object).Mirrors (.known types) (memory'.fieldsOf object) :=
  rel_getD (h.objects object.id) .empty

theorem setField (h : memory.Agree types memory') (object : ObjectRef) (field : String)
    {v w : Value} (hv : ValuesAgree types v w) :
    (memory.setField object field v).Agree types (memory'.setField object field w) :=
  { h with objects := h.objects.modify object.id fun _ _ hxy => hxy.set field hv }

theorem withShared (h : memory.Agree types memory') {shared shared' : SharedStatics}
    (hshared : shared.Agree types shared') :
    Memory.Agree types { memory with shared } { memory' with shared := shared' } :=
  { h with shared := hshared }

theorem withSites (h : memory.Agree types memory') {sites sites' : Registry}
    (hsites : sites.Agree types sites') :
    Memory.Agree types { memory with sites } { memory' with sites := sites' } :=
  { h with sites := hsites }

end Memory.Agree

/-! ## Actions -/

/-- The actions lead from memories that agree to such memories, with outcomes that agree; or both
need more fuel. -/
def RunsAgree {α β : Type} (types : TypeId → RuntimeType) (R : α → β → Prop) (x : Run α)
    (y : Run β) : Prop :=
  ∀ memory memory', memory.Agree types memory' →
    Option.Rel (fun r r' => OutcomesAgree types R r.1 r'.1 ∧ r.2.Agree types r'.2)
      (x.run memory) (y.run memory')

namespace RunsAgree

variable {α β γ δ : Type} {R : α → β → Prop} {S : γ → δ → Prop} {x : Run α} {y : Run β}

theorem pure {a : α} {b : β} (h : R a b) : RunsAgree types R (pure a) (pure b) :=
  fun _ _ hm => .some ⟨.ok h, hm⟩

theorem throw {e e' : DispatchError} (h : e.Agree types e') :
    RunsAgree types R (MonadExcept.throw e) (MonadExcept.throw e') :=
  fun _ _ hm => .some ⟨.error h, hm⟩

theorem exhausted : RunsAgree types R Run.exhausted Run.exhausted := fun _ _ _ => .none

theorem bind {f : α → Run γ} {g : β → Run δ} (h : RunsAgree types R x y)
    (h' : ∀ a b, R a b → RunsAgree types S (f a) (g b)) : RunsAgree types S (x >>= f) (y >>= g) := by
  intro memory memory' hm
  have hfirst := h memory memory' hm
  change Option.Rel _ ((x.run memory).bind _) ((y.run memory').bind _)
  generalize x.run memory = r at hfirst ⊢
  generalize y.run memory' = r' at hfirst ⊢
  cases hfirst with
  | none => exact .none
  | @some r r' hr =>
    obtain ⟨outcome, after⟩ := r
    obtain ⟨outcome', after'⟩ := r'
    obtain ⟨houtcome, hafter⟩ := hr
    cases houtcome with
    | ok hab => exact h' _ _ hab _ _ hafter
    | error he => exact .some ⟨.error he, hafter⟩

theorem get : RunsAgree types (Memory.Agree types) (getThe Memory) (getThe Memory) :=
  fun _ _ hm => .some ⟨.ok hm, hm⟩

theorem set {memory memory' : Memory} (h : memory.Agree types memory') :
    RunsAgree types (fun _ _ => True) (set memory) (set memory') :=
  fun _ _ _ => .some ⟨.ok trivial, h⟩

theorem modify {f g : Memory → Memory}
    (h : ∀ memory memory', memory.Agree types memory' → (f memory).Agree types (g memory')) :
    RunsAgree types (fun _ _ => True) (modifyThe Memory f) (modifyThe Memory g) :=
  fun _ _ hm => .some ⟨.ok trivial, h _ _ hm⟩

theorem ofExcept {x : Except DispatchError α} {y : Except DispatchError β}
    (h : OutcomesAgree types R x y) :
    RunsAgree types R (MonadExcept.ofExcept x) (MonadExcept.ofExcept y) := by
  cases h with
  | ok hab => exact pure hab
  | error he => exact throw he

theorem attempt (h : RunsAgree types R x y) :
    RunsAgree types (OutcomesAgree types R) (Run.attempt x) (Run.attempt y) := by
  intro memory memory' hm
  have hfirst := h memory memory' hm
  simp only [Run.attempt, ExceptT.run_mk]
  generalize x.run memory = r at hfirst ⊢
  generalize y.run memory' = r' at hfirst ⊢
  cases hfirst with
  | none => exact .none
  | some hr => exact .some ⟨.ok hr.1, hr.2⟩

theorem outcomeOf {init init' : Run Unit} (h : RunsAgree types (fun _ _ => True) init init') :
    RunsAgree types (OutcomesAgree types fun _ _ => True) (StackScript.outcomeOf init)
      (StackScript.outcomeOf init') := by
  rw [outcomeOf_eq_attempt, outcomeOf_eq_attempt]
  exact h.attempt

theorem discard (h : RunsAgree types R x y) :
    RunsAgree types (fun _ _ => True) (discard x) (discard y) :=
  h.bind fun _ _ _ => pure trivial

/-! ### Static fields -/

theorem ensureInitialized (typeName : String) {init init' : Run Unit}
    (h : RunsAgree types (fun _ _ => True) init init') :
    RunsAgree types (fun _ _ => True) (StackScript.ensureInitialized typeName init)
      (StackScript.ensureInitialized typeName init') := by
  refine get.bind fun memory memory' hm => ?_
  obtain ⟨hadmission, hshared⟩ := hm.shared.enter typeName
  generalize memory.shared.enter typeName = entered at hadmission hshared ⊢
  generalize memory'.shared.enter typeName = entered' at hadmission hshared ⊢
  obtain ⟨admission, shared⟩ := entered
  obtain ⟨admission', shared'⟩ := entered'
  cases hadmission with
  | granted => exact pure trivial
  | refused he => exact throw he
  | first =>
    refine (set (hm.withShared hshared)).bind fun _ _ _ => h.outcomeOf.bind fun outcome outcome' ho =>
      (modify fun _ _ hm => hm.withShared (hm.shared.leave typeName ho)).bind fun _ _ _ => ?_
    cases ho with
    | ok => exact pure trivial
    | error he => exact throw he

theorem boundStatics (context : ContextId) (typeName : String) {init init' : HolderId → Run Unit}
    (h : ∀ id, RunsAgree types (fun _ _ => True) (init id) (init' id)) :
    RunsAgree types (fun id id' => id = id') (StackScript.boundStatics context typeName init)
      (StackScript.boundStatics context typeName init') := by
  refine get.bind fun memory memory' hm => ?_
  obtain ⟨hadmission, hid, hentered⟩ := (hm.context context).enterStatics typeName
  generalize (memory.context context).enterStatics typeName = entered at hadmission hid hentered ⊢
  generalize (memory'.context context).enterStatics typeName = entered'
    at hadmission hid hentered ⊢
  obtain ⟨admission, id, entered⟩ := entered
  obtain ⟨admission', id', entered'⟩ := entered'
  dsimp only at hadmission hid hentered ⊢
  subst hid
  cases hadmission with
  | granted => exact pure rfl
  | refused he => exact throw he
  | first =>
    refine (set (hm.setContext context hentered)).bind fun _ _ _ =>
      (h id).outcomeOf.bind fun outcome outcome' ho =>
        (modify fun _ _ hm => hm.setContext context
          ((hm.context context).leaveStatics id ho)).bind fun _ _ _ => ?_
    cases ho with
    | ok => exact pure rfl
    | error he => exact throw he

end RunsAgree

end StackScript
