import StackScript.Proofs.Machine.Confinement

/-!
# What a routine does in one context

The memory of several contexts is compared with one that a single context has for itself. A routine
that leaves shared fields to their initializers does in the one memory what it does in the other,
and in the first one it leaves alone what the other contexts have.

## Main definitions

* `Memory.Mirrors`: a context and its objects are the same in both memories
* `Memory.Spares`: the other contexts and the objects of others are as they were
* `Memory.Alongside`: all of this together

## Main results

* `Image.mirrors_answer`: requests are answered alike
* `Image.mirrors_run`: a routine that ends among other contexts ends in a memory of its own as well
-/

namespace StackScript

variable {image : Image} {c : image.Confinement} {id : ContextId} {p q held : Pairing image.HasType}
  {memory memory' base : Memory}

/-! ## Memories -/

/-- The context of a number is in both memories, and what stands for each other has fields that
mirror each other. -/
structure Memory.Mirrors (p : Pairing image.HasType) (id : ContextId) (memory memory' : Memory) :
    Prop where
  bound : ∀ a b, p.pairs a b → a.id < memory.objects.size ∧ b.id < memory'.objects.size
  fields : ∀ a b, p.pairs a b → (memory.fieldsOf a).Mirrors p (memory'.fieldsOf b)
  context : Option.Rel (Context.Mirrors p) memory.contexts[id]? memory'.contexts[id]?

/-- Since an earlier state of the memory the other contexts have not changed, and no object but new
ones and those that were held has. -/
structure Memory.Spares (held p : Pairing image.HasType) (id : ContextId) (memory base : Memory) :
    Prop where
  contexts : ∀ other, other ≠ id → memory.contexts[other]? = base.contexts[other]?
  size : base.objects.size ≤ memory.objects.size
  objects : ∀ n < base.objects.size, (∀ a b, held.pairs a b → a.id ≠ n) →
    memory.objects[n]? = base.objects[n]?
  fresh : ∀ a b, p.pairs a b → held.pairs a b ∨ base.objects.size ≤ a.id

namespace Memory

variable {a : ObjectRef}

theorem fieldsOf_setField (bound : a.id < memory.objects.size) (b : ObjectRef) (field : String)
    (value : Value) :
    (memory.setField a field value).fieldsOf b =
      if a.id = b.id then (memory.fieldsOf a).set field value else memory.fieldsOf b := by
  simp only [fieldsOf, setField, Array.getElem?_modify]
  split
  · next same =>
    rw [← same, Array.getElem?_eq_getElem bound]
    rfl
  · rfl

theorem fieldsOf_create (bound : a.id < memory.objects.size) (type : RuntimeType) :
    (memory.create type).2.fieldsOf a = memory.fieldsOf a := by
  simp only [fieldsOf, create, Array.getElem?_push, if_neg (Nat.ne_of_lt bound)]

theorem fieldsOf_created (memory : Memory) (type : RuntimeType) :
    (memory.create type).2.fieldsOf (memory.create type).1 = .empty := by
  simp [fieldsOf, create]

theorem echo_eq (memory : Memory) (id : ContextId) (text : String) :
    memory.echo id text = memory.setContext id ((memory.context id).echo text) := by
  unfold echo setContext context
  congr 1
  refine Array.ext_getElem? fun i => ?_
  rw [Array.getElem?_modify, Array.getElem?_setIfInBounds]
  split
  · next same =>
    subst same
    split
    · next bound => simp [Array.getElem?_eq_getElem bound]
    · next bound => simp [Array.getElem?_eq_none (Nat.le_of_not_lt bound)]
  · rfl

namespace Mirrors

theorem setField (h : memory.Mirrors p id memory') {a b : ObjectRef} (pair : p.pairs a b)
    (field : String) {v w : Value} (values : v.Mirrors p w) :
    (memory.setField a field v).Mirrors p id (memory'.setField b field w) where
  bound a' b' pair' := by simpa [Memory.setField] using h.bound a' b' pair'
  fields a' b' pair' := by
    rw [fieldsOf_setField (h.bound a b pair).1, fieldsOf_setField (h.bound a b pair).2]
    by_cases same : a.id = a'.id
    · rw [if_pos same, if_pos ((p.unique pair pair').mp same)]
      exact (h.fields a b pair).set field values
    · rw [if_neg same, if_neg (same ∘ (p.unique pair pair').mpr)]
      exact h.fields a' b' pair'
  context := h.context

theorem setContext (h : memory.Mirrors p id memory') {context context' : Context}
    (contexts : context.Mirrors p context') :
    (memory.setContext id context).Mirrors p id (memory'.setContext id context') where
  bound := h.bound
  fields := h.fields
  context := by
    have there := h.context
    simp only [Memory.setContext, Array.getElem?_setIfInBounds_self]
    by_cases bound : id < memory.contexts.size
    · rw [if_pos bound]
      rw [Array.getElem?_eq_getElem bound] at there
      split
      · exact .some contexts
      · next bound' =>
        rw [Array.getElem?_eq_none (Nat.le_of_not_lt bound')] at there
        cases there
    · rw [if_neg bound]
      rw [Array.getElem?_eq_none (Nat.le_of_not_lt bound)] at there
      split
      · next bound' =>
        rw [Array.getElem?_eq_getElem bound'] at there
        cases there
      · exact .none

theorem context_mirrors (h : memory.Mirrors p id memory') :
    (memory.context id).Mirrors p (memory'.context id) := rel_getD h.context .new

/-- A new object of one type is made in both memories. -/
theorem create (h : memory.Mirrors p id memory') {type : RuntimeType} (given : image.HasType type) :
    ∃ q, p ≤ q ∧ q.pairs (memory.create type).1 (memory'.create type).1 ∧
      (∀ a b, q.pairs a b → p.pairs a b ∨ a.id = memory.objects.size) ∧
      (memory.create type).2.Mirrors q id (memory'.create type).2 := by
  have fresh (a b) (pair : p.pairs a b) :
      a.id ≠ (memory.create type).1.id ∧ b.id ≠ (memory'.create type).1.id :=
    ⟨Nat.ne_of_lt (h.bound a b pair).1, Nat.ne_of_lt (h.bound a b pair).2⟩
  have le : p ≤ p.add (memory.create type).1 (memory'.create type).1 rfl given fresh :=
    fun a b pair => .inl pair
  refine ⟨_, le, .inr ⟨rfl, rfl⟩, fun a b pair => pair.imp_right fun same =>
    congrArg ObjectRef.id same.1, ?_, ?_,
    rel_mono h.context fun _ _ contexts => contexts.mono le⟩
  · rintro a b (pair | ⟨rfl, rfl⟩)
    · obtain ⟨bound, bound'⟩ := h.bound a b pair
      exact ⟨Nat.lt_of_lt_of_le bound (by simp [Memory.create]),
        Nat.lt_of_lt_of_le bound' (by simp [Memory.create])⟩
    · simp [Memory.create]
  · rintro a b (pair | ⟨rfl, rfl⟩)
    · rw [fieldsOf_create (h.bound a b pair).1, fieldsOf_create (h.bound a b pair).2]
      exact (h.fields a b pair).mono le
    · rw [fieldsOf_created, fieldsOf_created]
      exact .empty

end Mirrors

namespace Spares

/-- What a routine does to an object that it has. -/
theorem setField (h : memory.Spares held p id base) {a b : ObjectRef} (pair : p.pairs a b)
    (field : String) (value : Value) : (memory.setField a field value).Spares held p id base where
  contexts := h.contexts
  size := by simpa [Memory.setField] using h.size
  objects n bound own := by
    rw [← h.objects n bound own, Memory.setField, Array.getElem?_modify, if_neg]
    intro same
    obtain pair | new := h.fresh a b pair
    · exact own a b pair same
    · omega
  fresh := h.fresh

theorem setContext (h : memory.Spares held p id base) (context : Context) :
    (memory.setContext id context).Spares held p id base where
  __ := h
  contexts other unlike := by
    rw [← h.contexts other unlike, Memory.setContext, Array.getElem?_setIfInBounds_ne unlike.symm]

theorem create (h : memory.Spares held p id base) (type : RuntimeType)
    (fresh : ∀ a b, q.pairs a b → p.pairs a b ∨ a.id = memory.objects.size) :
    (memory.create type).2.Spares held q id base where
  contexts := h.contexts
  size := Nat.le_trans h.size (by simp [Memory.create])
  objects n bound own := by
    have size := h.size
    rw [← h.objects n bound own, Memory.create, Array.getElem?_push, if_neg (by omega)]
  fresh a b pair := by
    obtain pair | new := fresh a b pair
    · exact h.fresh a b pair
    · exact .inr (new ▸ h.size)

end Spares

end Memory

/-- **A memory of several contexts alongside one that a context has for itself**: both are in order,
the context and its objects are the same in both, and what the other contexts have is as it was. -/
structure Memory.Alongside (c : image.Confinement) (id : ContextId) (held : Pairing image.HasType)
    (base : Memory) (p : Pairing image.HasType) (memory memory' : Memory) : Prop where
  tidy : memory.Tidy c
  tidy' : memory'.Tidy c
  mirrors : memory.Mirrors p id memory'
  spares : memory.Spares held p id base

namespace Memory.Alongside

theorem withShared (h : Memory.Alongside c id held base p memory memory')
    {shared shared' : SharedStatics}
    (settled : shared.Settled image) (settled' : shared'.Settled image) :
    Memory.Alongside c id held base p (memory.withShared shared) (memory'.withShared shared') :=
  ⟨h.tidy.withShared settled, h.tidy'.withShared settled', { h.mirrors with }, { h.spares with }⟩

theorem withSites (h : Memory.Alongside c id held base p memory memory') {sites sites' : Registry}
    (tidy : sites.Tidy c) (tidy' : sites'.Tidy c) :
    Memory.Alongside c id held base p { memory with sites } { memory' with sites := sites' } :=
  ⟨h.tidy.withSites tidy, h.tidy'.withSites tidy', { h.mirrors with }, { h.spares with }⟩

theorem setField (h : Memory.Alongside c id held base p memory memory') {a b : ObjectRef}
    (pair : p.pairs a b) (field : String) {v w : Value} (values : v.Mirrors p w) :
    Memory.Alongside c id held base p (memory.setField a field v) (memory'.setField b field w) :=
  ⟨h.tidy.setField a field v, h.tidy'.setField b field w, h.mirrors.setField pair field values,
    h.spares.setField pair field v⟩

theorem create (h : Memory.Alongside c id held base p memory memory') {type : RuntimeType}
    (given : image.HasType type) : ∃ q, p ≤ q ∧
      q.pairs (memory.create type).1 (memory'.create type).1 ∧
      Memory.Alongside c id held base q (memory.create type).2 (memory'.create type).2 := by
  obtain ⟨q, le, pair, fresh, mirrors⟩ := h.mirrors.create given
  exact ⟨q, le, pair, h.tidy.create type, h.tidy'.create type, mirrors, h.spares.create type fresh⟩

theorem setContext (h : Memory.Alongside c id held base p memory memory') {context context' : Context}
    (contexts : context.Mirrors p context')
    (functions : ∀ entry ∈ context.functions, entry.2.Within image c.bodies) :
    Memory.Alongside c id held base p (memory.setContext id context)
      (memory'.setContext id context') :=
  ⟨h.tidy.setContext functions, h.tidy'.setContext (contexts.functions ▸ functions),
    h.mirrors.setContext contexts, h.spares.setContext context⟩

theorem keepsContext : KeepsContext (Memory.Alongside c id held base) id := fun h =>
  ⟨h.mirrors.context_mirrors, fun _ _ contexts same => h.setContext contexts
    (same ▸ h.tidy.functions id)⟩

theorem echo (h : Memory.Alongside c id held base p memory memory') (text : String) :
    Memory.Alongside c id held base p (memory.echo id text) (memory'.echo id text) := by
  rw [echo_eq, echo_eq]
  exact h.setContext (h.mirrors.context_mirrors.echo text) (h.tidy.functions id)

end Memory.Alongside

/-! ## Shared fields -/

theorem Fields.mirrors_store {fields : Fields} (h : fields.Mirrors p fields) {stores : Stores}
    (bare : ∀ entry ∈ stores, entry.2.Bare) : (fields.store stores).Mirrors p (fields.store stores) := by
  induction stores generalizing fields with
  | nil => exact h
  | cons first rest ih =>
    obtain ⟨own, bare⟩ := List.forall_mem_cons.mp bare
    exact ih (h.set first.1 (own.mirrors p)) bare

namespace Image

variable {fuel fuel' : Nat} {type : QualifiedName}

/-- **What a shared static field reads as** is the same in both memories: what the initializer of
the type has stored, now or before. -/
theorem mirrors_loadShared (named : type.key = nameKey type.text)
    (quiet : image.InitializesQuietly type.text)
    (enough : ∀ n key settled, image.settle n key = some settled →
      image.settle fuel' key = some settled) (field : String) :
    RunsMirror (Memory.Alongside c id held base) p Value.Mirrors
      (image.answer (image.run fuel) id (.loadShared type field))
      (image.answer (image.run fuel') id (.loadShared type field)) := by
  intro memory memory' related outcome after ends
  change ((image.initializeShared (image.run fuel) id type).run memory).bind _ = _ at ends
  change ∃ q outcome' after', p ≤ q ∧
    ((image.initializeShared (image.run fuel') id type).run memory').bind _ = _ ∧ _
  cases first : (image.initializeShared (image.run fuel) id type).run memory with
  | none =>
    rw [first] at ends
    cases ends
  | some r =>
    obtain ⟨result, between⟩ := r
    obtain ⟨n, stores, shared, settles, rfl, settled, fields⟩ :=
      settled_initializeShared quiet named related.tidy.shared first
    obtain ⟨between', first'⟩ : ∃ after, (image.initializeShared (image.run fuel') id type).run
        memory' = some (result, after) :=
      exists_initializeShared quiet named related.tidy'.shared (enough n _ _ settles)
    obtain ⟨n', stores', shared', settles', rfl, settled', fields'⟩ :=
      settled_initializeShared quiet named related.tidy'.shared first'
    obtain rfl : stores = stores' := congrArg Prod.snd (settle_unique settles settles')
    have bare := bare_of_settle quiet settles
    have next := related.withShared settled settled'
    rw [first] at ends
    rw [first']
    cases result with
    | error e =>
      cases ends
      exact ⟨p, _, _, p.le_refl, rfl, .error ((bare.error e rfl).mirrors p), next⟩
    | ok =>
      cases ends
      refine ⟨p, _, _, p.le_refl, rfl, .ok ?_, next⟩
      change (shared.get type.text field).Mirrors p (shared'.get type.text field)
      rw [SharedStatics.get, SharedStatics.get, fields rfl, fields' rfl]
      exact (Fields.mirrors_store .empty bare.stores).get field

/-! ## Requests -/

/-- Frames of the bodies that are given are run alike in a context. -/
def RunnersMirror (c : image.Confinement) (id : ContextId)
    (W : Pairing image.HasType → Memory → Memory → Prop) (run run' : Runner) : Prop :=
  ∀ p body step step', c.bodies body → step.By body → step.Mirrors p step' →
    RunsMirror W p Value.Mirrors (run id (.frame body step)) (run' id (.frame body step'))

section Requests

variable {run run' : Runner} {receiver receiver' : Option Value} {args args' : List Value}
    {body : Body} {shape : SiteShape}

/-- The call of a body that is given. -/
theorem mirrors_ofBody (h : RunnersMirror c id (Memory.Alongside c id held base) run run')
    (given : c.bodies body) (receivers : Option.Rel (Value.Mirrors p) receiver receiver')
    {args args' : List FrameArg} (arguments : List.Forall₂ (FrameArg.Mirrors p) args args') :
    RunsMirror (Memory.Alongside c id held base) p Value.Mirrors
      (run id (.ofBody body receiver args)) (run' id (.ofBody body receiver' args')) :=
  h p body _ _ given trivial (.running (.enter body receivers arguments))

/-- A body that is found by its key is called. -/
theorem mirrors_bodyOf {α β : Type} {W : Pairing image.HasType → Memory → Memory → Prop}
    {R : Pairing image.HasType → α → β → Prop} {key : String} {f : Body → Run α} {g : Body → Run β}
    (within : ∀ body, image.body? key = some body → c.bodies body)
    (h : ∀ body, c.bodies body → RunsMirror W p R (f body) (g body)) :
    RunsMirror W p R (MonadExcept.ofExcept (image.bodyOf key) >>= f)
      (MonadExcept.ofExcept (image.bodyOf key) >>= g) := by
  unfold bodyOf
  cases found : image.body? key with
  | none => exact .failed (.noBody key)
  | some body => exact h body (within body found)

theorem mirrors_callRoutine (h : RunnersMirror c id (Memory.Alongside c id held base) run run')
    {routine : RoutineRef} (within : routine.Within image c.bodies)
    (receivers : Option.Rel (Value.Mirrors p) receiver receiver')
    (arguments : ValuesMirror p args args') :
    RunsMirror (Memory.Alongside c id held base) p Value.Mirrors
      (image.callRoutine run id routine receiver args)
      (image.callRoutine run' id routine receiver' args') := by
  cases routine with
  | compiled key formals =>
    exact mirrors_bodyOf within fun body given =>
      mirrors_ofBody h given receivers (.cons .context (mirrors_layArgs formals arguments))
  | native index =>
    refine .get fun memory memory' related => ?_
    rw [related.tidy.natives, related.tidy'.natives]
    exact RunsMirror.failed _ memory memory' related

theorem mirrors_callFunction (h : RunnersMirror c id (Memory.Alongside c id held base) run run')
    (name : String) (arguments : ValuesMirror p args args') :
    RunsMirror (Memory.Alongside c id held base) p Value.Mirrors
      (image.callFunction run id name args) (image.callFunction run' id name args') := by
  refine .get fun memory memory' related => ?_
  rw [← related.mirrors.context_mirrors.function? name]
  cases found : (memory.context id).function? name with
  | none =>
    have undefined : DispatchError.Mirrors p (.undefinedFunction name) (.undefinedFunction name) :=
      .same nofun
    exact RunsMirror.throw undefined memory memory' related
  | some routine =>
    obtain ⟨entry, there, same⟩ := Option.map_eq_some_iff.mp found
    have within := related.tidy.functions id entry (List.mem_of_find?_eq_some there)
    exact mirrors_callRoutine h (same ▸ within) .none arguments memory memory' related

theorem mirrors_flattenArgs (given : c.shapes shape) (arguments : ValuesMirror p args args') :
    RunsMirror (Memory.Alongside c id held base) p (fun q => ValuesMirror q)
      (flattenArgs shape args) (flattenArgs shape args') := by
  refine .get fun memory memory' related => ?_
  obtain ⟨same, -, tidy⟩ := related.tidy.sites.site given
  obtain ⟨same', -, tidy'⟩ := related.tidy'.sites.site given
  exact RunsMirror.setAt p.le_refl (related.withSites tidy tidy')
    (.ofExcept (CallSite.flatten_of_mirrors (same.trans same'.symm) arguments))

/-- **A call through a site** is made alike, whatever the sites have served before. -/
theorem mirrors_invokeSite (h : RunnersMirror c id (Memory.Alongside c id held base) run run')
    (given : c.shapes shape) {receiver receiver' : Value} (receivers : receiver.Mirrors p receiver')
    (arguments : ValuesMirror p args args') :
    RunsMirror (Memory.Alongside c id held base) p Value.Mirrors
      (image.invokeSite run id shape receiver args)
      (image.invokeSite run' id shape receiver' args') := by
  refine .get fun memory memory' related => ?_
  obtain ⟨same, reached, tidy⟩ := related.tidy.sites.site given
  obtain ⟨same', reached', tidy'⟩ := related.tidy'.sites.site given
  dsimp only
  generalize memory.sites.site shape = entered at same reached tidy ⊢
  generalize memory'.sites.site shape = entered' at same' reached' tidy' ⊢
  have prepared := CallSite.prepare_of_mirrors (fun _ => c.typed) reached reached'
    (same.trans same'.symm) receivers arguments
  have served := tidy.update (.serve reached (receivers.typed (fun _ => c.typed) _ args).1)
    (by rwa [CallSite.shape_serve, same])
  have served' := tidy'.update (.serve reached' (receivers.typed (fun _ => c.typed) _ args').2)
    (by rwa [CallSite.shape_serve, same'])
  refine RunsMirror.setAt p.le_refl (related.withSites served served')
    ((RunsMirror.ofExcept (R := Invocation.Mirrors) prepared).bind fun q le a b invocations => ?_)
  obtain ⟨level, mem, own⟩ := invocations.own
  rw [← invocations.method]
  exact mirrors_callRoutine h (c.methods _ (q.given invocations.receiver) level mem _ own)
    (.some (.object invocations.receiver)) invocations.args

theorem mirrors_create (h : RunnersMirror c id (Memory.Alongside c id held base) run run')
    {type : QualifiedName}
    (within : ∀ body, image.body? (BodyName.constructor type).key = some body → c.bodies body)
    {args args' : List FrameArg} (arguments : List.Forall₂ (FrameArg.Mirrors p) args args') :
    RunsMirror (Memory.Alongside c id held base) p Value.Mirrors
      (image.create run id type args) (image.create run' id type args') := by
  have awaits : RunsMirror (Memory.Alongside c id held base) p (fun _ _ _ => True)
      image.awaitTypes image.awaitTypes := by
    unfold awaitTypes
    split
    · exact .pure trivial
    · exact .exhausted
  refine awaits.bind fun q atLeast _ _ _ => ?_
  cases found : image.type? type.text with
  | none => exact .failed _
  | some runtimeType =>
    refine .get fun memory memory' related => ?_
    obtain ⟨q, le, pair, next⟩ := related.create ⟨_, found⟩
    dsimp only
    refine RunsMirror.setAt le next (mirrors_bodyOf within fun body given =>
      (mirrors_ofBody h given (.some (.object pair))
        (arguments.imp fun _ _ arg => (arg.mono atLeast).mono le)).bind fun r le _ _ _ =>
          .pure (.object (le _ _ pair)))

theorem mirrors_initializeBound (h : RunnersMirror c id (Memory.Alongside c id held base) run run')
    {type : QualifiedName} (within : ∀ body,
      image.body? (BodyName.method type BodyName.staticsInitializerName).key = some body →
        c.bodies body) :
    RunsMirror (Memory.Alongside c id held base) p (fun _ n n' => n = n')
      (image.initializeBound run id type) (image.initializeBound run' id type) := by
  refine RunsMirror.boundStatics Memory.Alongside.keepsContext _ fun _ => ?_
  unfold runInitializer
  split
  · next body found =>
    exact (mirrors_ofBody h (within body found) .none (.cons .context .nil)).discard
  · exact .pure trivial

/-- **Requests are answered alike**: those of a body that is given. -/
theorem mirrors_answer {fuel fuel' : Nat}
    (h : RunnersMirror c id (Memory.Alongside c id held base) (image.run fuel) (image.run fuel'))
    (enough : ∀ n key settled, image.settle n key = some settled → image.settle fuel' key = some settled)
    (given : c.bodies body) {request request' : Request} {frame : Frame}
    (asked : (Step.asking request frame).By body) (requests : request.Mirrors p request') :
    RunsMirror (Memory.Alongside c id held base) p Value.Mirrors
      (image.answer (image.run fuel) id request) (image.answer (image.run fuel') id request') := by
  obtain ⟨i, mem, own⟩ := asked
  have confined := c.code body given i mem
  -- What the instruction may refer to comes from the body, so each request is matched with the
  -- instruction that makes it.
  cases requests with
  | echo text =>
    exact (RunsMirror.modify fun _ _ related => related.echo text).bind fun _ _ _ _ _ => .pure .null
  | loadField field pair =>
    exact .get fun memory memory' related =>
      RunsMirror.pure ((related.mirrors.fields _ _ pair).get field) memory memory' related
  | storeField field pair values =>
    exact (RunsMirror.modify fun _ _ related => related.setField pair field values).bind
      fun _ _ _ _ _ => .pure .null
  | loadShared type field =>
    obtain rfl : i = .loadShared type field := own
    exact mirrors_loadShared confined.1 confined.2 enough field
  | storeShared type field =>
    obtain rfl : i = .storeShared type field := own
    exact confined.elim
  | loadBound type field =>
    obtain rfl : i = .loadBound type field := own
    refine (mirrors_initializeBound h confined).bind fun q _ n n' same => ?_
    subst same
    exact .get fun memory memory' related =>
      RunsMirror.pure (related.mirrors.context_mirrors.getStatic n field) memory memory' related
  | @storeBound v w type field values =>
    obtain rfl : i = .storeBound type field := own
    refine (mirrors_initializeBound h confined).bind fun q le n n' same => ?_
    subst same
    exact (RunsMirror.modify fun memory _ related => (related.keepsContext).2 _ _
      (related.mirrors.context_mirrors.setStatic n field (values.mono le))
      ((memory.context id).functions_setStatic n field v)).bind fun _ _ _ _ _ => .pure .null
  | call name receivers arguments =>
    obtain ⟨argc, onObject, rfl⟩ := own
    exact mirrors_bodyOf confined fun body given => mirrors_ofBody h given receivers arguments
  | callGlobal name arguments => exact mirrors_callFunction h _ arguments
  | callSite shape receivers arguments =>
    obtain rfl : i = .callSite shape := own
    exact (mirrors_flattenArgs confined arguments).bind fun q le _ _ arguments =>
      mirrors_invokeSite h confined (receivers.mono le) arguments
  | create type arguments =>
    obtain ⟨argc, rfl⟩ := own
    exact mirrors_create h confined arguments

end Requests

/-! ## Runs -/

/-- **A routine that ends among other contexts** ends in a memory of its context's own as well, with
some more fuel, and comes to the same. -/
theorem mirrors_run {enough : Nat} (settles : ∀ n key settled, image.settle n key = some settled →
      image.settle enough key = some settled) (n : Nat) :
    RunnersMirror c id (Memory.Alongside c id held base) (image.run n) (image.run (n + enough)) := by
  induction n with
  | zero => exact fun _ _ _ _ _ _ _ => .exhausted
  | succ n ih =>
    rw [Nat.succ_add]
    intro p body step step' given asked steps
    have settles (m key settled) (h : image.settle m key = some settled) :
        image.settle (n + enough) key = some settled :=
      settle_mono (Nat.le_add_left _ _) (settles m key settled h)
    cases steps with
    | returned values => exact .pure values
    | failed errors => exact .throw errors
    | running frames =>
      exact ih p body _ _ given (body.step_by _) (body.step_of_mirrors frames)
    | asking requests frames =>
      exact (mirrors_answer ih settles given asked requests).attempt.bind
        fun q le _ _ answers => ih q body _ _ given (body.resume_by _ _ _)
          (body.resume_of_mirrors requests (frames.mono le) answers)

end Image

end StackScript
