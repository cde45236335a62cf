import StackScript.Proofs.Naming.Bodies
import StackScript.Proofs.Program.Members
import StackScript.Proofs.Program.Receivers

/-!
# How a program constructs its objects

In a loaded program the creation of an object of a type runs the constructors of the type and of its
bases, one inside the other. Together they do what a construction does: the context, the fields from
the root on, and one initializer.

## Main definitions

* `Program.Constructible`: a type whose bases are all declared, and whose constructors are found
* `Program.ConstructsInOrder`: what the creation of an object of the type comes to

## Main results

* `Program.construction_order`: every type of a program without diagnostics is constructed in order
-/

namespace StackScript

open Construction

/-! ## Allowances -/

/-- Calls and creations are always allowed. -/
structure Allowance.Lenient (allowed : Allowance) : Prop where
  calls : ∀ name receiver args memory, allowed (.call name receiver args) memory
  creates : ∀ type args memory, allowed (.create type args) memory

theorem Allowance.lenient_all : Allowance.all.Lenient where
  calls _ _ _ _ := trivial
  creates _ _ _ := trivial

theorem Allowance.lenient_keepingContext (object : ObjectRef) :
    (Allowance.keepingContext object).Lenient where
  calls _ _ _ _ _ _ := by rintro ⟨⟩
  creates _ _ _ _ _ := by rintro ⟨⟩

/-! ## Calls and creations -/

namespace Image

variable {image : Image} {allowed : Allowance} {context : ContextId} {table : Table}
    {settings : Settings} {numbers : TypeEntry → SiteId} {object : ObjectRef} {entry : TypeEntry}
    {line : List TypeEntry} {memory : Memory} {args : List FrameArg} {fresh : Memory}

/-- The constructor of a type that is found by its key does what it means. -/
theorem constructs (lenient : allowed.Lenient) {body : Body}
    (compiled : ((WorkItem.constructor entry).compile table settings (numbers entry)).1 = .ok body)
    (loaded : image.bodyOf (BodyName.constructor entry.name).key = .ok body) :
    Constructs (image.world allowed context) object table settings numbers entry := by
  intro args
  rw [world_call, Run.ensure_of (lenient.calls _ _ _), pure_bind, loaded]
  exact runs_constructor compiled

/-- If one type is there, all have been built. -/
theorem awaitTypes_eq {name : String} {type : RuntimeType} (loaded : image.type? name = some type) :
    image.awaitTypes = pure () := by
  obtain ⟨store, built, -⟩ := Option.bind_eq_some_iff.mp loaded
  rw [awaitTypes, built]
  rfl

/-- A creation makes an object and calls its constructor. -/
theorem run_create (lenient : allowed.Lenient) {type : QualifiedName} {runtimeType : RuntimeType}
    (loaded : image.type? type.text = some runtimeType) :
    (image.world allowed context (.create type args)).run memory = (do
      let object := (memory.create runtimeType).1
      let _ ← image.world allowed context (.call (.constructor type) (some (.object object)) args)
      return Value.object object : Run Value).run (memory.create runtimeType).2 := by
  rw [world_create, Run.ensure_of (lenient.creates _ _), pure_bind]
  simp only [world_call, Run.ensure_of (lenient.calls _ _ _), pure_bind, create,
    awaitTypes_eq loaded, loaded, bind_assoc]
  rfl

/-- An object is of exactly the types that have the name of its type. -/
theorem isExactly_create (found : table.Found entry)
    (created : memory.create (table.loadType entry) = (object, fresh)) (name : QualifiedName) :
    (Value.object object).isExactly name = (name.key == entry.name.key) := by
  obtain ⟨rfl, -⟩ := Prod.mk.inj created
  change (name.key == nameKey (table.loadType entry).name) = _
  rw [Table.name_loadType entry found.first]
  obtain ⟨spelled, declared⟩ := found
  rw [nameKey, Table.trimRoot_of_key_eq (Table.key_of_type? declared)]
  rfl

/-- **The constructors of a type and its bases** make up the construction of the object. -/
theorem run_create_line (args : List FrameArg) (lenient : allowed.Lenient)
    (found : table.Found entry) (loaded : image.type? entry.name.text = some (table.loadType entry))
    (chain : table.Line entry line) (rooted : ∀ t ∈ line, Rooted table t)
    (created : memory.create (table.loadType entry) = (object, fresh))
    (constructs : ∀ t ∈ line, Constructs (image.world allowed context) object table settings numbers t) :
    (image.world allowed context (.create entry.name args)).run memory = (do
      let world := image.world allowed context
      inOrder world world object table settings numbers entry line args
      return Value.object object : Run Value).run fresh := by
  obtain ⟨bases, rfl⟩ := chain.eq_cons
  have apart (t : TypeEntry) (mem : t ∈ bases) :
      (Value.object object).isExactly t.name = false := by
    have nodup := chain.keys_nodup found.first
    rw [List.map_cons, List.nodup_cons] at nodup
    rw [isExactly_create found created, beq_eq_false_iff_ne]
    exact fun same => nodup.1 (same ▸ List.mem_map_of_mem mem)
  have own (vars : Vars) : runIfExact (image.world allowed context) object table entry vars =
      runUserInitializer (image.world allowed context) object table entry vars := by
    rw [runIfExact, isExactly_create found created, beq_self_eq_true, if_pos rfl]
  rw [run_create lenient loaded, created]
  simp only [constructor_line chain rooted constructs apart, inOrder, own, bind_assoc, pure_bind]

/-! ## The context of the object -/

/-- The root of a line stores the context. -/
theorem exists_storesContext (chain : table.Line entry line) (rooted : ∀ t ∈ line, Rooted table t) :
    ∃ t ∈ line, t.storesContext = true := by
  induction chain with
  | @last entry none_above =>
    refine ⟨entry, List.mem_cons_self, ?_⟩
    have rooted := rooted entry List.mem_cons_self
    rw [Rooted, none_above] at rooted
    cases base : entry.base with
    | none => simp [TypeEntry.storesContext, base]
    | some _ =>
      rw [base] at rooted
      exact absurd (rooted rfl) Bool.false_ne_true
  | derived _ _ ih =>
    obtain ⟨t, mem, stores⟩ := ih fun t mem => rooted t (List.mem_cons_of_mem _ mem)
    exact ⟨t, List.mem_cons_of_mem _ mem, stores⟩

/-- The context of an object that is there can be stored, and is there then. -/
theorem run_storeContext (image : Image) (context : ContextId) (entry : TypeEntry)
    (there : object.id < memory.objects.size) :
    ∃ after, (storeContext (image.world (.keepingContext object) context) object entry).run memory =
        some (.ok (), after) ∧ object.id < after.objects.size ∧
      (Carries object memory.objects ∨ entry.storesContext = true →
        Carries object after.objects) := by
  unfold storeContext
  cases stores : entry.storesContext with
  | false => exact ⟨memory, rfl, there, fun h => h.resolve_right Bool.false_ne_true⟩
  | true =>
    have allowed : Allowance.keepingContext object
        (.storeField object contextField (.string Slot.contextMark)) memory := by
      rintro ref value ⟨⟩ - ⟨⟩
    refine ⟨memory.setField object contextField (.string Slot.contextMark), ?_, ?_, fun _ => ?_⟩
    · rw [if_pos rfl, Eval.ask, world_storeField, bind_assoc, Run.run_ensure_bind, if_pos allowed]
      rfl
    · simpa [Memory.setField] using there
    · exact carries_store rfl there (by rintro ⟨⟩)

theorem run_storeContexts (image : Image) (context : ContextId) (line : List TypeEntry)
    (there : object.id < memory.objects.size) :
    ∃ after, (storeContexts (image.world (.keepingContext object) context) object line).run memory =
        some (.ok (), after) ∧ object.id < after.objects.size ∧
      (Carries object memory.objects ∨ (∃ t ∈ line, t.storesContext = true) →
        Carries object after.objects) := by
  induction line generalizing memory with
  | nil => exact ⟨memory, rfl, there, fun h => h.resolve_right (by simp)⟩
  | cons entry bases ih =>
    obtain ⟨between, first, there, carries⟩ := run_storeContext image context entry there
    obtain ⟨after, rest, there, carries'⟩ := ih there
    refine ⟨after, ?_, there, fun h => carries' ?_⟩
    · rw [storeContexts]
      exact Run.run_bind_iff.mpr (.inr ⟨(), between, first, rest⟩)
    · obtain holds | ⟨t, mem, stores⟩ := h
      · exact .inl (carries (.inl holds))
      · obtain rfl | mem := List.mem_cons.mp mem
        · exact .inl (carries (.inr stores))
        · exact .inr ⟨t, mem, stores⟩

/-- **From the context on the object carries it**, until null is stored in its place. -/
theorem run_create_carrying (found : table.Found entry)
    (loaded : image.type? entry.name.text = some (table.loadType entry))
    (chain : table.Line entry line) (rooted : ∀ t ∈ line, Rooted table t)
    (created : memory.create (table.loadType entry) = (object, fresh))
    (constructs : ∀ t ∈ line, Constructs (image.world (.keepingContext object) context)
      object table settings numbers t) :
    (image.world (.keepingContext object) context (.create entry.name args)).run memory = (do
      let world := image.world (.keepingContext object) context
      let world' := image.world ((Allowance.keepingContext object).asLongAs (Carries object)) context
      inOrder world world' object table settings numbers entry line args
      return Value.object object : Run Value).run fresh ∧
    ∀ outcome after,
      (image.world (.keepingContext object) context (.create entry.name args)).run memory =
        some (outcome, after) → Carries object after.objects := by
  set world := image.world (.keepingContext object) context
  set world' := image.world ((Allowance.keepingContext object).asLongAs (Carries object)) context
  have there : object.id < fresh.objects.size := by
    obtain ⟨rfl, rfl⟩ := Prod.mk.inj created
    simp
  obtain ⟨after, stored, -, carries⟩ := run_storeContexts image context line there
  have carries : Carries object after.objects := carries (.inr (exists_storesContext chain rooted))
  have alike : world.AlikeOn world' fun memory => Carries object memory.objects := {
    answers := fun request memory has => (world_asLongAs (keeps_carries object) has).1
    keeps := fun {request memory answer after} has ends =>
      (world_asLongAs (keeps_carries object) has).2 answer after ends }
  have rest : AlikeOn (fun memory => Carries object memory.objects) (do
      let vars ← storeLine world object table settings numbers line args
      runUserInitializer world object table entry vars
      return Value.object object) (do
      let vars ← storeLine world' object table settings numbers line args
      runUserInitializer world' object table entry vars
      return Value.object object) :=
    (alikeOn_storeLine alike line args).bind fun vars =>
      (alikeOn_runUserInitializer alike vars).bind fun _ => alikeOn_pure _
  have created := run_create_line args (Allowance.lenient_keepingContext object) found
    loaded chain rooted created constructs
  simp only [inOrder, bind_assoc] at created ⊢
  rw [created, Run.run_bind_of_ok stored, Run.run_bind_of_ok stored]
  exact ⟨(rest.outcome after carries).symm, fun outcome last ends => rest.keeps carries ends⟩

end Image

/-! ## Types of a program -/

namespace Program

variable {program : Program} {settings : Settings} {units : List SourceUnit} {entry : TypeEntry}
  {line : List TypeEntry}

/-- The bases of a type are all declared unconditionally, down to the root, and no other body has
the key of one of their constructors or of the initializer. -/
structure Constructible (program : Program) (entry : TypeEntry) (line : List TypeEntry) : Prop where
  found : program.table.Found entry
  chain : program.table.Line entry line
  rooted : ∀ t ∈ line, Rooted program.table t
  constructors : ∀ t ∈ line, program.Sole (BodyName.constructor t.name).key
  initializer : ∀ declaring init, program.table.resolveInitializer? entry = some (declaring, init) →
    program.Sole (BodyName.method declaring.name init.name).key

/-- What the creation of an object of a type comes to. -/
structure ConstructsInOrder (program : Program) (settings : Settings) (entry : TypeEntry)
    (line : List TypeEntry) (numbers : TypeEntry → SiteId) : Prop where
  /-- The constructors of the type and its bases are found by their keys. -/
  constructors : ∀ t ∈ line, ∃ body,
    ((WorkItem.constructor t).compile program.table settings (numbers t)).1 = .ok body ∧
      (Image.load program).bodyOf (BodyName.constructor t.name).key = .ok body
  /-- The initializer that is called is the one that the type has or inherits. -/
  initializer : ∀ declaring init,
    program.table.resolveInitializer? entry = some (declaring, init) →
      declaring.placement.site? = none ∧ ∃ n body,
        (compileRoutine program.table settings init declaring.placement.file none n).1 = .ok body ∧
        (Image.load program).bodyOf (BodyName.method declaring.name init.name).key = .ok body
  /-- A creation makes an object and constructs it in order. -/
  creates : ∀ context args memory object fresh,
    memory.create (program.table.loadType entry) = (object, fresh) →
    let image := Image.load program
    let world := image.world .all context
    ∀ outcome after,
      (∃ fuel, (image.answer (image.run fuel) context (.create entry.name args)).run memory =
        some (outcome, after)) ↔
      (do
        inOrder world world object program.table settings numbers entry line args
        return Value.object object : Run Value).run fresh = some (outcome, after)
  /-- The initializer gets what the constructor got, unless a field of the type assigns a
  parameter. -/
  arguments : ∀ declaring init,
    program.table.resolveInitializer? entry = some (declaring, init) →
      Eval.SpareParameters (entry.constructorEnv program.table settings) entry.instanceFields →
      ∀ (world : World Memory) object values memory vars after, Fits init.params values →
        (storeLine world object program.table settings numbers line (.context :: values)).run memory =
          some (.ok vars, after) →
        Eval.withContext (Eval.passed vars 0 init.params) = .context :: values
  /-- From the context on the object carries it, until null is stored in its place. -/
  carries : ∀ context args memory object fresh,
    memory.create (program.table.loadType entry) = (object, fresh) →
      let world := (Image.load program).world (.keepingContext object) context
      let world' := (Image.load program).world
        ((Allowance.keepingContext object).asLongAs (Carries object)) context
      (world (.create entry.name args)).run memory = (do
        inOrder world world' object program.table settings numbers entry line args
        return Value.object object : Run Value).run fresh ∧
      ∀ outcome after, (world (.create entry.name args)).run memory = some (outcome, after) →
        Carries object after.objects

theorem site?_of_found (h : program.table.Found entry) : entry.placement.site? = none := by
  obtain ⟨name, h⟩ := h
  have holds := List.find?_some h
  simp only [Bool.and_eq_true, Bool.not_eq_true'] at holds
  rw [Placement.site?, holds.1]
  rfl

/-- In a program without diagnostics the constructor of a declared type is found by its key, if no
other body has that key. -/
theorem exists_constructor (h : Program.compile settings units = .ok program)
    (clean : program.diagnostics = []) (found : program.table.Found entry)
    (sole : program.Sole (BodyName.constructor entry.name).key) :
    ∃ n body, ((WorkItem.constructor entry).compile program.table settings n).1 = .ok body ∧
      (Image.load program).bodyOf (BodyName.constructor entry.name).key = .ok body := by
  have name : (WorkItem.constructor entry).bodyName = .constructor entry.name := by
    simp only [WorkItem.bodyName, TypeEntry.bodyName, site?_of_found found]
    rfl
  have mem : WorkItem.constructor entry ∈ WorkItem.all program.table := by
    refine List.mem_append_right _ (List.mem_flatMap.mpr ⟨entry, found.mem, ?_⟩)
    simp [WorkItem.ofType]
  rw [← name] at sole ⊢
  exact exists_bodyOf h clean mem sole

/-- The same holds of the methods of declared types. -/
theorem exists_method (h : Program.compile settings units = .ok program)
    (clean : program.diagnostics = []) (found : program.table.Found entry)
    (owns : entry.OwnsMethods) {method : Routine} (mem : method ∈ entry.methods)
    (sole : program.Sole (BodyName.method entry.name method.name).key) :
    ∃ n body, (compileRoutine program.table settings method entry.placement.file none n).1 =
        .ok body ∧
      (Image.load program).bodyOf (BodyName.method entry.name method.name).key = .ok body := by
  obtain ⟨owner, owned, same⟩ := owns.owner method mem
  have key : (WorkItem.routine method entry.placement.file none).bodyName.key =
      (BodyName.method entry.name method.name).key := by
    simp only [WorkItem.bodyName, Routine.bodyName, owned, BodyName.atSite, BodyName.method,
      BodyName.key, same]
  have mem : WorkItem.routine method entry.placement.file none ∈ WorkItem.all program.table := by
    refine List.mem_append_right _ (List.mem_flatMap.mpr ⟨entry, found.mem, ?_⟩)
    simp [WorkItem.ofType, site?_of_found found, mem]
  rw [← key] at sole ⊢
  exact exists_bodyOf h clean mem sole

/-- The initializer of a type is declared by one of its line. -/
theorem mem_of_resolveInitializer? {table : Table} {declaring : TypeEntry} {init : Routine}
    (found : table.Found entry) (chain : table.Line entry line)
    (resolved : table.resolveInitializer? entry = some (declaring, init)) :
    declaring ∈ line ∧ init ∈ declaring.methods := by
  rw [Table.resolveInitializer?, chain.baseChain found] at resolved
  obtain ⟨t, mem, own⟩ := List.exists_of_findSome?_eq_some resolved
  obtain ⟨method, declared, same⟩ := Option.map_eq_some_iff.mp own
  cases same
  exact ⟨mem, List.mem_of_find?_eq_some declared⟩

/-- **Every type of a program without diagnostics is constructed in order.** -/
theorem exists_constructsInOrder (h : Program.compile settings units = .ok program)
    (clean : program.diagnostics = []) (acyclic : program.table.Acyclic)
    (owns : ∀ unit ∈ units, ∀ entry ∈ declaredItems false unit.items, entry.2.OwnsMethods)
    (constructible : program.Constructible entry line) :
    ∃ numbers, program.ConstructsInOrder settings entry line numbers := by
  obtain ⟨found, chain, rooted, constructors, initializer⟩ := constructible
  have lineFound := chain.found found
  have each (t : TypeEntry) (mem : t ∈ line) :=
    exists_constructor h clean (lineFound t mem) (constructors t mem)
  choose! numbers each using each
  have loaded : (Image.load program).type? entry.name.text =
      some (program.table.loadType entry) := by
    rw [Image.type?_load acyclic, found.type?_name]
    rfl
  have constructs (allowed : Allowance) (lenient : allowed.Lenient) (context : ContextId)
      (object : ObjectRef) (t : TypeEntry) (mem : t ∈ line) :
      Constructs ((Image.load program).world allowed context) object program.table settings numbers
        t := by
    obtain ⟨body, compiled, found⟩ := each t mem
    exact Image.constructs lenient compiled found
  refine ⟨numbers, each, fun declaring init resolved => ?_, ?_, ?_, ?_⟩
  · obtain ⟨mem, own⟩ := mem_of_resolveInitializer? found chain resolved
    have populated := (eq_ofResults_of_compile h).1
    refine ⟨site?_of_found (lineFound declaring mem), exists_method h clean (lineFound declaring mem)
      (Table.ownsMethods_of_ofUnits populated owns (lineFound declaring mem).mem) own
      (initializer declaring init resolved)⟩
  · intro context args memory object fresh created image world outcome after
    rw [← Image.run_world_all, Image.run_create_line args Allowance.lenient_all found loaded chain rooted
      created (constructs _ Allowance.lenient_all context object)]
  · intro declaring init resolved spares world object values memory vars after fits ends
    obtain ⟨bases, rfl⟩ := chain.eq_cons
    exact withContext_passed fits (args_storeLine spares ends)
  · intro context args memory object fresh created
    exact Image.run_create_carrying found loaded chain rooted created
      (constructs _ (Allowance.lenient_keepingContext object) context object)

/-- What an object that carries its context can rely on. -/
structure KeepsReceivers (program : Program) (settings : Settings) : Prop where
  /-- Whatever runs, the object carries its context at every request, until null is stored in its
  place. -/
  keeps : ∀ object context activity memory, Carries object memory.objects →
    ((Image.load program).runs ((Allowance.keepingContext object).asLongAs (Carries object)) context
        activity).run memory =
      ((Image.load program).runs (.keepingContext object) context activity).run memory ∧
    ∀ outcome after, ((Image.load program).runs (.keepingContext object) context activity).run memory =
      some (outcome, after) → Carries object after.objects
  /-- The check of the receiver at the start of a method lets the object pass. -/
  passes : ∀ (method : Routine) file site n body, method.graph.Built →
    (compileRoutine program.table settings method file site n).1 = .ok body →
    settings.optimization = .debug → method.isStatic = false → method.threadsContext = true →
    body.code[2]? = some .assertNotNull ∧
    ∀ (allowed : Allowance) context object args memory, Carries object memory.objects →
      allowed (.loadField object contextField) memory →
      Reaches ((Image.load program).world allowed context) body
        (.running (.enter body (some (.object object)) args), memory)
        (.running (.behindCheck body object args), memory)

theorem keepsReceivers (program : Program) (settings : Settings) :
    program.KeepsReceivers settings where
  keeps object _ _ _ carries := Image.runs_asLongAs (keeps_carries object) carries
  passes _ _ _ _ _ built compiled debug instance_method threads :=
    ⟨(code_of_compileRoutine built compiled debug instance_method threads).2.2.1,
      fun _ _ _ _ _ carries reads =>
        (climbs_behindCheck built compiled debug instance_method threads reads carries).reaches⟩

/-- **Objects are constructed in order** in a program whose types can all be built, and carry their
context from the start: their methods do not fail for the want of one, unless null has been stored
in its place. -/
theorem construction_order (h : Program.compile settings units = .ok program)
    (clean : program.diagnostics = []) (acyclic : program.table.Acyclic)
    (owns : ∀ unit ∈ units, ∀ entry ∈ declaredItems false unit.items, entry.2.OwnsMethods)
    (constructible : program.Constructible entry line) :
    (∃ numbers, program.ConstructsInOrder settings entry line numbers) ∧
      program.KeepsReceivers settings :=
  ⟨exists_constructsInOrder h clean acyclic owns constructible, keepsReceivers program settings⟩

/-! ## Types with an initializer -/

/-- A type with a field that has an initial value. -/
def typeWithField (name : String) (base : Option QualifiedName) (value : Expr)
    (methods : List Routine) : Item :=
  .type ⟨⟨name⟩, base, [⟨"f", false, some value⟩], methods, false, false⟩

/-- A method that echoes its parameter. -/
def echoing (name : String) : Routine :=
  ⟨name, [⟨"x", .value .value, none⟩], false, none, false, .straight [⟨.echo (.var "x"), none⟩]⟩

/-- A type owns methods that name no owner, if there is one at most. -/
theorem ownsMethods_typeWithField {name : String} {base : Option QualifiedName} {value : Expr}
    {methods : List Routine} (few : methods = [] ∨ ∃ method, methods = [echoing method]) :
    ∀ entry ∈ (typeWithField name base value methods).declared false, entry.2.OwnsMethods := by
  intro entry mem
  simp only [typeWithField, Item.declared, List.mem_singleton] at mem
  subst mem
  obtain rfl | ⟨method, rfl⟩ := few
  · exact ⟨by simp, .nil⟩
  · exact ⟨by simp [echoing], List.pairwise_singleton _ _⟩

/-- A type that inherits its initializer. -/
def inheritingType : SourceUnit :=
  ⟨"a.php", [typeWithField "A" none (.literal (.string "a")) [echoing userInitializer],
    typeWithField "B" (some ⟨"A"⟩) (.literal (.string "b")) []]⟩

theorem construction_order_inheritingType :
    ∃ program entry line, Program.compile (.ofPreset .debug) [inheritingType] = .ok program ∧
      program.diagnostics = [] ∧ program.table.Acyclic ∧
      (∀ unit ∈ [inheritingType], ∀ entry ∈ declaredItems false unit.items,
        entry.2.OwnsMethods) ∧
      program.Constructible entry line ∧ line.length = 2 ∧
      (program.table.resolveInitializer? entry).isSome ∧
      (∃ numbers, program.ConstructsInOrder (.ofPreset .debug) entry line numbers) ∧
      program.KeepsReceivers (.ofPreset .debug) := by
  have compiled : (Program.compiled? (.ofPreset .debug) [inheritingType]).map (fun program =>
      let entry? := program.table.type? "B"
      let base? := entry?.bind program.table.base?
      (program.diagnostics.length, program.table.buildTypes.isSome,
        program.bodies.map (·.name.key),
        entry?.any fun entry => (program.table.resolveInitializer? entry).isSome,
        base?.any fun base => base.base.isNone)) =
      some (0, true, ["a::__construct", "a::.ctor", "b::.ctor"], true, true) := by decide +kernel
  obtain ⟨program, compiled, facts⟩ := Option.map_eq_some_iff.mp compiled
  simp only [Prod.mk.injEq, List.length_eq_zero_iff, Option.any_eq_true, Option.isNone_iff_eq_none]
    at facts
  obtain ⟨clean, built, keys, ⟨entry, declared, resolved⟩, base, above, root⟩ := facts
  have acyclic := Table.isSome_buildTypes_iff.mp built
  rw [declared, Option.bind_some] at above
  have compiled := Program.compile_of_compiled? compiled
  -- Each key belongs to one body, since those of all of them differ.
  have sole (key : String) : program.Sole key := by
    have apart : (program.bodies.map (·.name.key)).Nodup := keys ▸ by decide
    exact (List.pairwise_map.mp apart).imp fun unlike same same' => unlike (same.trans same'.symm)
  have none_above : program.table.base? base = none := by rw [Table.base?, root]; rfl
  have constructible : program.Constructible entry [entry, base] := {
    found := ⟨_, declared⟩
    chain := .derived above (.last none_above)
    rooted := by
      simp only [List.mem_cons, List.not_mem_nil, or_false, forall_eq_or_imp, forall_eq, Rooted,
        above, root]
      exact ⟨fun _ => rfl, fun h => absurd h Bool.false_ne_true⟩
    constructors := fun _ _ => sole _
    initializer := fun _ _ _ => sole _ }
  have owns : ∀ unit ∈ [inheritingType], ∀ entry ∈ declaredItems false unit.items,
      entry.2.OwnsMethods := by
    simp only [List.mem_singleton, forall_eq, inheritingType, declaredItems, List.append_nil,
      List.forall_mem_append]
    exact ⟨ownsMethods_typeWithField (.inr ⟨_, rfl⟩), ownsMethods_typeWithField (.inl rfl)⟩
  obtain ⟨ordered, keeps⟩ := construction_order compiled clean acyclic owns constructible
  exact ⟨program, entry, _, compiled, clean, acyclic, owns, constructible, rfl, resolved, ordered, keeps⟩

/-- A type whose field assigns the parameter of the constructor. -/
def assigningType : SourceUnit :=
  ⟨"a.php", [typeWithField "A" none (.assign "x" (.literal (.string "b")))
    [echoing userInitializer]]⟩

/-- A method of one type that has the key of the constructor of another. -/
def collidingTypes : SourceUnit :=
  ⟨"a.php", [typeWithField "A::B" none (.literal (.string "b")) [],
    typeWithField "A" none (.literal (.string "a")) [echoing "B::.ctor"]]⟩

/-- A type beside two that are bases of each other. -/
def circularTypes : SourceUnit :=
  ⟨"a.php", [typeWithField "T" none (.literal (.string "t")) [],
    typeWithField "A" (some ⟨"B"⟩) (.literal (.string "a")) [],
    typeWithField "B" (some ⟨"A"⟩) (.literal (.string "b")) []]⟩

/-- A memory with one context. -/
def oneContext : Memory := (Memory.empty 4).addContext.2

/-- **Three ways to miss the construction**: a field that assigns a parameter changes what the
initializer gets, a body with the key of the constructor runs in its place and stores nothing, and
types that are bases of each other keep the objects of all types from being made. -/
theorem exists_misconstruction :
    (∀ unit ∈ [assigningType, collidingTypes, circularTypes], ∀ entry ∈ declaredItems false unit.items,
      entry.2.OwnsMethods) ∧
    (∃ program, Program.compile (.ofPreset .release) [assigningType] = .ok program ∧
      program.diagnostics = [] ∧
      (((Image.load program).callMethod 40 0 "A" userInitializer .null [.string "a"]).run
        oneContext).map (fun r => (r.2.context 0).output) = some "a" ∧
      (((Image.load program).construct 40 0 "A" [.string "a"]).run oneContext).map
        (fun r => (r.2.context 0).output) = some "b") ∧
    (∃ program, Program.compile (.ofPreset .release) [collidingTypes] = .ok program ∧
      program.diagnostics = [] ∧
      (((Image.load program).construct 40 0 "A::B" []).run oneContext).map (fun r =>
        (r.1.isOk, r.2.objects.toList.map fun fields => fields.entries.length)) =
        some (true, [0])) ∧
    ∃ program entry, Program.compile (.ofPreset .release) [circularTypes] = .ok program ∧
      program.diagnostics = [] ∧ program.table.type? "T" = some entry ∧
      program.table.Line entry [entry] ∧
      ∀ fuel args, ((Image.load program).construct fuel 0 "T" args).run oneContext = none := by
  have assigned : (Program.compiled? (.ofPreset .release) [assigningType]).map (fun program =>
      (program.diagnostics.length,
        (((Image.load program).callMethod 40 0 "A" userInitializer .null [.string "a"]).run
          oneContext).map (fun r => (r.2.context 0).output),
        (((Image.load program).construct 40 0 "A" [.string "a"]).run oneContext).map
          (fun r => (r.2.context 0).output))) = some (0, some "a", some "b") := by decide +kernel
  have collided : (Program.compiled? (.ofPreset .release) [collidingTypes]).map (fun program =>
      (program.diagnostics.length,
        (((Image.load program).construct 40 0 "A::B" []).run oneContext).map (fun r =>
          (r.1.isOk, r.2.objects.toList.map fun fields => fields.entries.length)))) =
      some (0, some (true, [0])) := by decide +kernel
  have circular : (Program.compiled? (.ofPreset .release) [circularTypes]).map (fun program =>
      (program.diagnostics.length, program.table.buildTypes.isSome,
        (program.table.type? "T").any fun entry => entry.base.isNone)) =
      some (0, false, true) := by decide +kernel
  obtain ⟨program, compiled, facts⟩ := Option.map_eq_some_iff.mp assigned
  obtain ⟨program', compiled', facts'⟩ := Option.map_eq_some_iff.mp collided
  obtain ⟨program'', compiled'', facts''⟩ := Option.map_eq_some_iff.mp circular
  simp only [Prod.mk.injEq, List.length_eq_zero_iff, Option.any_eq_true, Option.isNone_iff_eq_none]
    at facts facts' facts''
  obtain ⟨clean, endless, entry, declared, root⟩ := facts''
  have alone : program''.table.Line entry [entry] := .last (by rw [Table.base?, root]; rfl)
  refine ⟨?_, ⟨program, Program.compile_of_compiled? compiled, facts⟩,
    ⟨program', Program.compile_of_compiled? compiled', facts'⟩,
    program'', entry, Program.compile_of_compiled? compiled'', clean, declared, alone,
    fun fuel args => ?_⟩
  swap
  · rw [Image.construct, Image.create, Image.awaitTypes, Image.load, endless]
    rfl
  simp only [List.mem_cons, List.not_mem_nil, or_false, forall_eq_or_imp, forall_eq, assigningType,
    collidingTypes, circularTypes, declaredItems, List.append_nil, List.forall_mem_append]
  have owned {name : String} {value : Expr} (method : String) :
      ∀ entry ∈ (typeWithField name none value [echoing method]).declared false,
        entry.2.OwnsMethods := ownsMethods_typeWithField (.inr ⟨method, rfl⟩)
  have none_owned {name : String} {base : Option QualifiedName} {value : Expr} :
      ∀ entry ∈ (typeWithField name base value []).declared false, entry.2.OwnsMethods :=
    ownsMethods_typeWithField (.inl rfl)
  exact ⟨owned _, ⟨none_owned, owned _⟩, none_owned, none_owned, none_owned⟩

end Program

end StackScript
