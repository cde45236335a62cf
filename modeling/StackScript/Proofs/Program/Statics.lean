import StackScript.Proofs.Declaration.Chains
import StackScript.Proofs.Machine.Sessions
import StackScript.Proofs.Program.Apart

/-!
# Static fields of a program

A static field has one place in each context, or one for all of them. Whatever code of the program
loads or stores it, under the name of its type or of a type derived from it, does so there; and no
two fields share a place.

## Main definitions

* `TypeEntry.storage`: the place of a static field
* `TypeEntry.access`: the instruction that loads or stores it

## Main results

* `Program.static_fields_are_variables`: the static fields of a program are variables that are
  initialized before they are used
* `Program.exists_lost_initializer`: if another body has the key of the initializer they may not be
-/

namespace StackScript

open Emit

/-! ## Places of fields -/

namespace TypeEntry

variable (entry : TypeEntry) (context : ContextId) (field : Field) (store : Bool)

/-- The static fields of the type that are initialized together with a field. -/
def statics : Statics :=
  if field.requiresContext then .bound context (nameKey entry.name.text)
  else .shared (nameKey entry.name.text)

/-- **The place of a static field** that the type declares. -/
def storage : StaticField := ⟨entry.statics context field, field.name⟩

/-- The instruction that loads or stores a static field that the type declares. -/
def access (store : Bool) : Instruction :=
  staticAccess field.requiresContext store entry.name field.name

/-- The body that initializes the field. -/
def initializer : WorkItem :=
  if field.requiresContext then .boundInitializer entry else .sharedInitializer entry

/-- An access goes to the place of the field. -/
theorem staticField?_access :
    (entry.access field store).staticField? context = some (entry.storage context field) := by
  unfold access storage statics staticAccess
  cases field.requiresContext <;> cases store <;> rfl

theorem staticType?_access : (entry.access field store).staticType? = some entry.name := by
  unfold access staticAccess
  cases field.requiresContext <;> cases store <;> rfl

variable {entry field}

theorem bindsField_of_field? (h : entry.field? field.name = some field) :
    entry.bindsField field.name = field.requiresContext := by
  rw [bindsField, h]

/-- Where the names of the fields are distinct, a name finds its field. -/
theorem field?_of_nodup (distinct : (entry.fields.map (·.name)).Nodup) (mem : field ∈ entry.fields) :
    entry.field? field.name = some field := by
  cases found : entry.field? field.name with
  | none => simpa using List.find?_eq_none.mp found field mem
  | some other =>
    have named := List.find?_some found
    exact congrArg some (List.inj_on_of_nodup_map distinct (List.mem_of_find?_eq_some found) mem
      (eq_of_beq named))

theorem mem_fields_of_mem_staticFields (mem : field ∈ entry.staticFields) : field ∈ entry.fields :=
  List.mem_of_mem_filter mem

end TypeEntry

/-! ## Code that is written for accesses -/

/-- What was written between two drafts accesses static fields by these instructions alone. -/
def Draft.Adds (d d' : Draft) (accesses : List Instruction) : Prop :=
  ∃ code, d'.asm.code.toList = d.asm.code.toList ++ code ∧
    code.filter (·.staticType?.isSome) = accesses

section Adds

variable {d e d' : Draft} {accesses more : List Instruction} {i : Instruction} {env : BodyEnv}

theorem Draft.Adds.of_code_eq (h : d'.asm.code = d.asm.code) : d.Adds d' [] :=
  ⟨[], by rw [h, List.append_nil], rfl⟩

theorem Draft.Adds.trans (h : d.Adds e accesses) (h' : e.Adds d' more) :
    d.Adds d' (accesses ++ more) := by
  obtain ⟨code, added, rfl⟩ := h
  obtain ⟨code', added', rfl⟩ := h'
  exact ⟨code ++ code', by rw [added', added, List.append_assoc], List.filter_append ..⟩

/-- Code that accesses no static field, and code behind it. -/
theorem Draft.Adds.behind (h : d.Adds e []) (h' : e.Adds d' more) : d.Adds d' more := h.trans h'

theorem Draft.adds_emit (d : Draft) (i : Instruction) :
    d.Adds { d with asm := d.asm.emit i } ([i].filter (·.staticType?.isSome)) :=
  ⟨[i], by simp, rfl⟩

theorem Draft.adds_plain (d : Draft) (plain : i.staticType? = none) :
    d.Adds { d with asm := d.asm.emit i } [] := by
  simpa [plain] using d.adds_emit i

theorem adds_of_loadContext (ends : Ends (loadContext env) d () d') : d.Adds d' [] := by
  unfold loadContext at ends
  split at ends
  · rw [ends_emit.mp ends]
    exact d.adds_plain rfl
  · exact (Emit.not_ends_violate ends).elim

end Adds

section Accesses

variable {env : BodyEnv} {type : QualifiedName} {name : String} {entry : TypeEntry} {field : Field}
  {value : Emit Unit} {keep : Bool} {d d' : Draft}

theorem resolveStaticField_of_resolveStatic?
    (resolved : env.table.resolveStatic? type.text name = some entry) :
    resolveStaticField env type name = pure (entry.name, entry.bindsField name) := by
  unfold resolveStaticField
  rw [resolved]
  rfl

theorem Draft.adds_access (d : Draft) (store : Bool) (owner : QualifiedName) (bound : Bool) :
    d.Adds { d with asm := d.asm.emit (staticAccess bound store owner name) }
      [staticAccess bound store owner name] := by
  have adds := d.adds_emit (staticAccess bound store owner name)
  cases bound <;> cases store <;> exact adds

/-- **A load of a static field** loads it from its place. -/
theorem adds_of_loadStatic (resolved : env.table.resolveStatic? type.text name = some entry)
    (ends : Ends (loadStatic env type name) d () d') :
    d.Adds d' [staticAccess (entry.bindsField name) false entry.name name] := by
  rw [loadStatic, resolveStaticField_of_resolveStatic? resolved, pure_bind] at ends
  cases bound : entry.bindsField name with
  | true =>
    simp only [bound, if_true, ends_bind] at ends
    obtain ⟨_, e, context, loads⟩ := ends
    rw [ends_emit.mp loads]
    exact (adds_of_loadContext context).behind (e.adds_access false entry.name true)
  | false =>
    simp only [bound, Bool.false_eq_true, if_false, ends_emit] at ends
    rw [ends]
    exact d.adds_access false entry.name false

/-- **An assignment to a static field** evaluates the value and stores it to the place of the field. -/
theorem adds_of_storeStatic (resolved : env.table.resolveStatic? type.text name = some entry)
    (ends : Ends (storeStatic env type name value keep) d () d') :
    ∃ e e', d.Adds e [] ∧ Ends value e () e' ∧
      e'.Adds d' [staticAccess (entry.bindsField name) true entry.name name] := by
  rw [storeStatic, resolveStaticField_of_resolveStatic? resolved, pure_bind] at ends
  cases bound : entry.bindsField name <;> cases keep <;> simp only [bound] at ends
  case false.false =>
    obtain ⟨_, e, evaluates, ends⟩ := ends_bind.mp ends
    rw [ends_emit.mp ends]
    exact ⟨d, e, .of_code_eq rfl, evaluates, e.adds_access true _ false⟩
  case false.true =>
    obtain ⟨_, e, evaluates, ends⟩ := ends_bind.mp ends
    obtain ⟨_, _, dups, ends⟩ := ends_bind.mp ends
    obtain rfl := ends_emit.mp dups
    rw [ends_emit.mp ends]
    exact ⟨d, e, .of_code_eq rfl, evaluates,
      (e.adds_plain rfl).behind (Draft.adds_access _ true _ false)⟩
  case true.false =>
    obtain ⟨_, e, context, ends⟩ := ends_bind.mp ends
    obtain ⟨_, e', evaluates, ends⟩ := ends_bind.mp ends
    rw [ends_emit.mp ends]
    exact ⟨e, e', adds_of_loadContext context, evaluates, e'.adds_access true _ true⟩
  case true.true =>
    simp only [ends_bind, ends_emit, ends_scratch, ends_release] at ends
    obtain ⟨_, e, evaluates, slot, _, ⟨rfl, rfl⟩, _, _, rfl, _, e', context, _, _, rfl, _, _, rfl,
      _, _, rfl, rfl⟩ := ends
    -- The value goes through a scratch slot.
    have stored := Draft.adds_plain
      { e with asm := { e.asm with slots := e.asm.slots.scratch.2 } }
      (show (Instruction.storeLocal e.asm.slots.scratch.1).staticType? = none from rfl)
    have loaded := e'.adds_plain
      (show (Instruction.loadLocal e.asm.slots.scratch.1).staticType? = none from rfl)
    refine ⟨d, e, .of_code_eq rfl, evaluates, ?_⟩
    refine Draft.Adds.behind (.of_code_eq rfl) (stored.behind ((adds_of_loadContext context).behind
      (loaded.behind ?_)))
    exact (Draft.adds_access _ true entry.name true).trans
      ((Draft.adds_plain _ rfl).trans (.of_code_eq rfl))

end Accesses

/-! ## Fields of a table -/

namespace Table

variable {table : Table} {type name : String} {entry other : TypeEntry} {field : Field}
    {base : Option String} {units : List SourceUnit}

/-- The fields of each type have different names. -/
def DistinctFields (table : Table) : Prop :=
  ∀ entry ∈ table.types, (entry.fields.map (·.name)).Nodup

/-- No type is declared conditionally. -/
def Unconditional (table : Table) : Prop :=
  ∀ entry ∈ table.types, entry.placement.conditional = false

instance : Decidable table.DistinctFields :=
  inferInstanceAs (Decidable (∀ entry ∈ table.types, _))

instance : Decidable table.Unconditional :=
  inferInstanceAs (Decidable (∀ entry ∈ table.types, _))

/-- A static field that is found under a name is one that its type declares. -/
theorem exists_field_of_resolveStatic? (h : table.resolveStatic? type name = some entry) :
    ∃ field ∈ entry.staticFields, field.name = name ∧ entry.field? name = some field := by
  have declares : declaresStatic entry name = true := by
    unfold resolveStatic? at h
    split at h
    · cases h
    · have declares := List.find?_some h
      exact declares
  unfold declaresStatic at declares
  split at declares
  case h_1 field found =>
    have named := List.find?_some found
    exact ⟨field, List.mem_filter.mpr ⟨List.mem_of_find?_eq_some found, declares⟩,
      eq_of_beq named, found⟩
  case h_2 => cases declares

/-- The nearest static field of a name is declared by its type. -/
theorem field_of_nearest {chain : List TypeEntry} (h : NearestStatic name chain entry field) :
    entry.field? name = some field ∧ field ∈ entry.staticFields ∧ field.name = name := by
  cases h with
  | found _ _ own =>
    obtain ⟨found, isStatic⟩ := Option.filter_eq_some_iff.mp own
    have named := List.find?_some found
    exact ⟨found, List.mem_filter.mpr ⟨List.mem_of_find?_eq_some found, isStatic⟩, eq_of_beq named⟩

/-- Its accesses are those of the field. -/
theorem staticAccess_eq_access (found : entry.field? field.name = some field) (store : Bool) :
    staticAccess (entry.bindsField field.name) store entry.name field.name =
      entry.access field store := by
  rw [TypeEntry.bindsField_of_field? found, TypeEntry.access]

/-- Without conditional declarations a key has one type. -/
theorem eq_of_key_eq (populated : ofUnits base units = .ok table)
    (unconditional : table.Unconditional) (trims : table.TrimsNames) (mem : entry ∈ table.types)
    (mem' : other ∈ table.types) (same : nameKey entry.name.text = nameKey other.name.text) :
    entry = other := by
  have declared : table.Declares entry.name.text entry :=
    ⟨mem, unconditional entry mem, trims.key mem⟩
  have declared' : table.Declares entry.name.text other :=
    ⟨mem', unconditional other mem', (trims.key mem').trans same.symm⟩
  rw [declares_iff populated] at declared declared'
  exact Option.some.inj (declared.symm.trans declared')

/-- **Different static fields have different places.** -/
theorem eq_of_storage_eq (populated : ofUnits base units = .ok table)
    (unconditional : table.Unconditional) (trims : table.TrimsNames)
    (distinct : table.DistinctFields) (mem : entry ∈ table.types) (own : field ∈ entry.staticFields)
    (mem' : other ∈ table.types) {field' : Field} (own' : field' ∈ other.staticFields)
    {context context' : ContextId}
    (same : entry.storage context field = other.storage context' field') :
    entry = other ∧ field = field' := by
  obtain ⟨statics, names⟩ := StaticField.mk.inj same
  have keys : nameKey entry.name.text = nameKey other.name.text := by
    cases bound : field.requiresContext <;> cases bound' : field'.requiresContext <;>
      simp [TypeEntry.statics, bound, bound'] at statics
    · exact statics
    · exact statics.2
  obtain rfl := eq_of_key_eq populated unconditional trims mem mem' keys
  exact ⟨rfl, List.inj_on_of_nodup_map (distinct entry mem)
    (TypeEntry.mem_fields_of_mem_staticFields own) (TypeEntry.mem_fields_of_mem_staticFields own')
    names⟩

end Table

/-! ## Accesses in the bodies of a program -/

namespace Program

variable {settings : Settings} {units : List SourceUnit} {program : Program} {body : Body}
  {i : Instruction} {entry : TypeEntry} {field : Field}

/-- **Every access to a static field** in a body is the one for a field that a type declares. -/
theorem exists_access_of_mem (h : compile settings units = .ok program)
    (distinct : program.table.DistinctFields) (mem : body ∈ program.bodies) (own : i ∈ body.code)
    (accesses : i.staticType?.isSome = true) :
    ∃ entry ∈ program.table.types, ∃ field ∈ entry.staticFields, ∃ store,
      i = entry.access field store := by
  obtain ⟨item, there, n, compiled⟩ := exists_item h mem
  obtain ⟨front, bears⟩ := item.exists_bears_of_compile compiled
  obtain ⟨m, at_⟩ := Array.getElem?_of_mem own
  obtain ⟨a, fine, -⟩ := bears.fine m i at_
  have refers : i.refers = true := by cases i <;> first | rfl | cases accesses
  have admits := fine.admits refers
  generalize a.cells = cells at admits
  have found {entry : TypeEntry} (mem : entry ∈ program.table.types) {field : Field}
      (own : field ∈ entry.staticFields) : entry.field? field.name = some field :=
    TypeEntry.field?_of_nodup (distinct entry mem) (TypeEntry.mem_fields_of_mem_staticFields own)
  cases admits with
  | inward inward => cases i <;> first | (cases refers; done) | cases inward
  | function | method | base | conditionalBase | initializer | create | conditionalCreate =>
    cases accesses
  | @static _ _ entry _ store resolved =>
    obtain ⟨field, declared, rfl, found⟩ := Table.exists_field_of_resolveStatic? resolved
    exact ⟨entry, Table.mem_of_resolveStatic? resolved, field, declared, store,
      Table.staticAccess_eq_access found store⟩
  | @sharedStore entry field _ item declared =>
    have free : field.requiresContext = false := requiresContext_of_mem_sharedFields declared
    refine ⟨entry, WorkItem.mem_types_of_initializer (.inl item) there, field,
      List.mem_of_mem_filter declared, true, ?_⟩
    rw [TypeEntry.access, free, staticAccess]
  | @boundStore entry field _ item declared =>
    obtain ⟨declared, bound⟩ := List.mem_filter.mp declared
    refine ⟨entry, WorkItem.mem_types_of_initializer (.inr item) there, field, declared, true, ?_⟩
    rw [TypeEntry.access, bound, staticAccess]

end Program

/-! ## Initializers -/

section Initializers

variable {table : Table} {settings : Settings} {env : BodyEnv} {entry : TypeEntry} {field : Field}
  {body : Body} {n : SiteId} {context own : ContextId}

theorem emits_initialValue (field : Field) : Emits 1 (initialValue env field) := by
  unfold initialValue
  split
  · exact emits_emitValue _
  · exact emits_emit rfl rfl rfl

theorem emits_initializeBound (fields : List Field) : Emits 0 (initializeBound env entry fields) := by
  induction fields with
  | nil => exact emits_pure
  | cons field rest ih =>
    exact careful_loadContext.emits.bind (fun _ => (emits_initialValue field).bind (fun _ =>
      (emits_emit rfl rfl rfl).bind (fun _ => ih) rfl) rfl) rfl

/-- **The body that initializes a field** stores to it before it returns. -/
theorem settles_initializer (declared : field ∈ entry.staticFields)
    (compiled : ((entry.initializer field).compile table settings n).1 = .ok body)
    (here : (entry.statics own field).RunsIn context) :
    body.Settles context (entry.storage own field) := by
  have stored {stores : List Instruction} {i : Instruction} (mem : i ∈ stores) :
      i ∈ (Shape.blank.storing stores).stores :=
    List.mem_append_left _ (List.mem_reverse.mpr mem)
  unfold TypeEntry.initializer at compiled
  unfold TypeEntry.storage
  unfold TypeEntry.statics at here ⊢
  cases bound : field.requiresContext with
  | false =>
    rw [bound] at compiled
    have mem : field ∈ entry.sharedFields := List.mem_filter.mpr ⟨declared, by simp [bound]⟩
    have made : (compileMember table settings entry _ _ _ _ _
      (fun env => do initializeShared env entry entry.sharedFields; returnNull) n).1 = .ok body :=
      compiled
    obtain ⟨regions, front, bears, stores⟩ := WorkItem.exists_returns_of_compileMember
      (fun env _ => written_initializeShared fun _ => id)
      (fun env => (careful_initializeShared _).emits) made
    refine ⟨_, _, front, bears, regions, fun m a there known =>
      ⟨.storeShared entry.name field.name, ?_, rfl⟩⟩
    rw [stores m a there known]
    exact stored (List.mem_map_of_mem mem)
  | true =>
    rw [bound] at compiled here
    obtain rfl : own = context := here
    have mem : field ∈ entry.boundFields := List.mem_filter.mpr ⟨declared, bound⟩
    have made : (compileMember table settings entry _ _ _ _ _
      (fun env => do initializeBound env entry entry.boundFields; returnNull) n).1 = .ok body :=
      compiled
    obtain ⟨regions, front, bears, stores⟩ := WorkItem.exists_returns_of_compileMember
      (fun env _ => written_initializeBound fun _ => id)
      (fun env => emits_initializeBound _) made
    refine ⟨_, _, front, bears, regions, fun m a there known =>
      ⟨.storeBound entry.name field.name, ?_, rfl⟩⟩
    rw [stores m a there known]
    exact stored (List.mem_map_of_mem mem)

end Initializers

namespace Program

variable {settings : Settings} {units : List SourceUnit} {program : Program} {entry : TypeEntry}
  {field : Field} {context : ContextId}

/-- A field with a type among the declarations has an initializer among the items. -/
theorem mem_all_initializer {table : Table} (mem : entry ∈ table.types)
    (declared : field ∈ entry.staticFields) : entry.initializer field ∈ WorkItem.all table := by
  refine List.mem_append_right _ (List.mem_flatMap.mpr ⟨entry, mem, ?_⟩)
  unfold TypeEntry.initializer WorkItem.ofType
  cases bound : field.requiresContext with
  | false =>
    have has : entry.hasSharedFields = true :=
      List.any_eq_true.mpr ⟨field, declared, by simp [bound]⟩
    simp [has]
  | true =>
    have has : entry.hasBoundFields = true := List.any_eq_true.mpr ⟨field, declared, bound⟩
    simp [has]

/-- Its key is that under which the initializer is looked for. -/
theorem key_initializer (trims : program.table.TrimsNames)
    (unconditional : program.table.Unconditional) (mem : entry ∈ program.table.types) (field : Field)
    (context : ContextId) :
    (entry.initializer field).bodyName.key = (entry.statics context field).initializerKey := by
  have place : entry.placement.site? = none := by
    simp [Placement.site?, unconditional entry mem]
  have type : entry.name.key = nameKey entry.name.text := trims.key mem
  unfold TypeEntry.initializer TypeEntry.statics
  cases field.requiresContext <;>
    simp [WorkItem.bodyName, TypeEntry.bodyName, BodyName.key, BodyName.method, BodyName.atSite,
      place, type, Statics.initializerKey]

/-- **The initializer of a field is the one that runs**, where no other body has its key. -/
theorem exists_initializes (h : compile settings units = .ok program)
    (clean : program.diagnostics = []) (trims : program.table.TrimsNames)
    (unconditional : program.table.Unconditional) (mem : entry ∈ program.table.types)
    (declared : field ∈ entry.staticFields)
    (sole : program.Sole (entry.statics context field).initializerKey) :
    ∃ body, body.name.key = (entry.statics context field).initializerKey ∧
      (Image.load program).Initializes (entry.storage context field) body := by
  have key := key_initializer trims unconditional mem field context
  rw [← key] at sole
  obtain ⟨n, body, compiled, found⟩ :=
    exists_bodyOf h clean (mem_all_initializer mem declared) sole
  have named : body.name.key = (entry.initializer field).bodyName.key :=
    congrArg BodyName.key (WorkItem.name_of_compile compiled).1
  have found : (Image.load program).body? (entry.initializer field).bodyName.key = some body := by
    unfold Image.bodyOf at found
    split at found <;> cases found
    assumption
  rw [key] at named found
  exact ⟨body, named, found, fun other here => settles_initializer declared compiled here⟩

/-- Code of the program names its types as they are looked up. -/
theorem namesTypes (h : compile settings units = .ok program) (trims : program.table.TrimsNames)
    (distinct : program.table.DistinctFields) : (Image.load program).NamesTypes := by
  rintro i ⟨key, body, found, own⟩ type names
  obtain ⟨mem, -⟩ := mem_of_body? found
  have accesses : i.staticType?.isSome = true := Option.isSome_iff_exists.mpr ⟨type, names⟩
  obtain ⟨entry, there, field, -, store, rfl⟩ := exists_access_of_mem h distinct mem own accesses
  obtain rfl := Option.some.inj ((entry.staticType?_access field store).symm.trans names)
  exact trims.key there

/-- **Static fields are variables that are initialized before they are used.** In a program without
conditional types and with distinct names of fields, code for an access to a static field accesses that
field alone, under whatever name of a type that inherits it, and stores go where loads look. No code of
the program accesses static fields otherwise, and different fields have different places.

So in all that a host does with the program, in any number of contexts, a load finds the value that was
stored last. Where the initializer of the field is not running, and no other body has its key, it has
stored to the field before. -/
theorem static_fields_are_variables (h : compile settings units = .ok program)
    (clean : program.diagnostics = []) (trims : program.table.TrimsNames)
    (distinct : program.table.DistinctFields) (unconditional : program.table.Unconditional) :
    (∀ (env : BodyEnv) (type : QualifiedName) (name : String) (t entry : TypeEntry) (field : Field),
      env.table = program.table → program.table.StandsFor type.text t →
      Table.NearestStatic name (program.table.baseChain t) entry field →
      (∀ d d', Ends (loadStatic env type name) d () d' → d.Adds d' [entry.access field false]) ∧
      ∀ value keep d d', Ends (storeStatic env type name value keep) d () d' →
        ∃ e e', d.Adds e [] ∧ Ends value e () e' ∧ e'.Adds d' [entry.access field true]) ∧
    (∀ body ∈ program.bodies, ∀ i ∈ body.code, i.staticType?.isSome = true →
      ∃ entry ∈ program.table.types, ∃ field ∈ entry.staticFields, ∃ store,
        i = entry.access field store) ∧
    (∀ entry ∈ program.table.types, ∀ field ∈ entry.staticFields,
      ∀ other ∈ program.table.types, ∀ field' ∈ other.staticFields, ∀ context context',
        entry.storage context field = other.storage context' field' →
        entry = other ∧ field = field') ∧
    ∀ (fuel cacheSize contexts : Nat) (script : List (Fin contexts × HostAction)),
      Watched.Erases ((Image.load program).watchSession fuel
          (script.map fun (context, action) => (context.val, action)))
        ((Image.load program).session fuel
          (script.map fun (context, action) => (context.val, action))) ∧
      ∀ later place value earlier,
        (Image.load program).record fuel cacheSize contexts script =
          later ++ .loaded place value :: earlier →
        value = (lastStored? place earlier).getD .null ∧
        ∃ entry ∈ program.table.types, ∃ field ∈ entry.staticFields, ∃ context,
          place = entry.storage context field ∧
          (program.Sole place.statics.initializerKey → isRunning place.statics earlier = false →
            StoredBy place.statics.initializerKey place earlier) := by
  have populated := (eq_ofResults_of_compile h).1
  refine ⟨fun env type name t entry field same stands nearest => ?_,
    fun body mem i own => exists_access_of_mem h distinct mem own,
    fun entry mem field own other mem' field' own' context context' =>
      Table.eq_of_storage_eq populated unconditional trims distinct mem own mem' own',
    fun fuel cacheSize contexts script => ⟨Image.erases_watchSession _ fuel _,
      fun later place value earlier split => ?_⟩⟩
  · -- The table finds the nearest field, and both kinds of code name what it found.
    have resolved := Table.resolveStatic?_of_nearest populated stands nearest
    rw [← same] at resolved
    obtain ⟨found, declared, rfl⟩ := Table.field_of_nearest nearest
    rw [← Table.staticAccess_eq_access found, ← Table.staticAccess_eq_access found]
    exact ⟨fun d d' => adds_of_loadStatic resolved, fun value keep d d' => adds_of_storeStatic resolved⟩
  · -- A load in the record is that of an instruction, and each of them accesses a field that is
    -- declared.
    have finds := Image.finds_record (namesTypes h trims distinct) split
    have happened :
        .loaded place value ∈ (Image.load program).record fuel cacheSize contexts script := by
      simp [split]
    obtain ⟨i, context, ⟨key, body, found, own⟩, at_⟩ := Image.by_of_mem_record happened
    have accesses : i.staticType?.isSome = true := by cases i <;> first | rfl | cases at_
    obtain ⟨entry, mem, field, declared, store, rfl⟩ :=
      exists_access_of_mem h distinct (mem_of_body? found).1 own accesses
    obtain rfl := Option.some.inj ((entry.staticField?_access context field store).symm.trans at_)
    refine ⟨finds.last, entry, mem, field, declared, context, rfl, fun sole idle => ?_⟩
    obtain ⟨body, named, initializes⟩ :=
      exists_initializes h clean trims unconditional mem declared sole
    exact named ▸ finds.initialized body initializes idle

/-- A type with a field that all contexts share, and one derived from it with a field of which every
context has its own copy. A function adds to the first and returns the second. -/
def counters : SourceUnit :=
  ⟨"a.php", [
    .type ⟨⟨"A"⟩, none, [⟨"n", true, some (.literal (.long 1))⟩], [], false, false⟩,
    .type ⟨⟨"B"⟩, some ⟨"A"⟩, [⟨"c", true, some (.staticLoad ⟨"B"⟩ "n")⟩], [], false, false⟩,
    .function ⟨"f", [], true, none, false, .straight [
      ⟨.eval (.staticStore ⟨"B"⟩ "n"
        (.binary .add (.staticLoad ⟨"A"⟩ "n") (.literal (.long 1)))), none⟩,
      ⟨.return (some (.staticLoad ⟨"B"⟩ "c")), none⟩]⟩]⟩

/-- The last event is a load where the initializer of the field is not running, which no other body can
be taken for. -/
def loadsIdle (program : Program) : List FieldEvent → Bool
  | .loaded field _ :: earlier =>
    !isRunning field.statics earlier && decide (program.Sole field.statics.initializerKey)
  | _ => false

/-- What a call of the function in two contexts loads has been stored by the initializers. -/
theorem static_fields_are_variables_counters :
    ∃ program later place value earlier,
      compile (.ofPreset .release) [counters] = .ok program ∧ program.diagnostics = [] ∧
      program.table.TrimsNames ∧ program.table.DistinctFields ∧ program.table.Unconditional ∧
      (Image.load program).record 40 4 2 [(0, .call "f" []), (1, .call "f" [])] =
        later ++ .loaded place value :: earlier ∧
      program.Sole place.statics.initializerKey ∧ isRunning place.statics earlier = false ∧
      value = (lastStored? place earlier).getD .null ∧
      StoredBy place.statics.initializerKey place earlier := by
  have compiled : (compiled? (.ofPreset .release) [counters]).map (fun program =>
      (program.diagnostics.isEmpty,
        program.table.types.all fun entry => trimRoot entry.name.text == entry.name.text,
        decide program.table.DistinctFields, decide program.table.Unconditional,
        ((Image.load program).record 40 4 2
          [(0, .call "f" []), (1, .call "f" [])]).tails.any program.loadsIdle)) =
      some (true, true, true, true, true) := by decide +kernel
  obtain ⟨program, compiled, facts⟩ := Option.map_eq_some_iff.mp compiled
  simp only [Prod.mk.injEq, List.isEmpty_iff, List.all_eq_true, List.any_eq_true, beq_iff_eq,
    decide_eq_true_eq] at facts
  obtain ⟨clean, trims, distinct, unconditional, events, tail, idle⟩ := facts
  have compiled := compile_of_compiled? compiled
  obtain ⟨-, -, -, runs⟩ :=
    static_fields_are_variables compiled clean trims distinct unconditional
  obtain ⟨later, happened⟩ := (List.mem_tails _ _).mp tail
  unfold loadsIdle at idle
  split at idle
  case h_2 => cases idle
  case h_1 place value earlier =>
    rw [Bool.and_eq_true, Bool.not_eq_true', decide_eq_true_eq] at idle
    obtain ⟨idle, sole⟩ := idle
    obtain ⟨last, _, _, _, _, _, _, initialized⟩ :=
      (runs 40 4 2 [(0, .call "f" []), (1, .call "f" [])]).2 later place value earlier happened.symm
    exact ⟨program, later, place, value, earlier, compiled, clean, trims, distinct, unconditional,
      happened.symm, sole, idle, last, initialized sole idle⟩

/-- A type with a static field, and one whose method goes by the key of the initializer of that field. -/
def namesakeInitializer : SourceUnit :=
  ⟨"a.php", [
    .type ⟨⟨"A::B"⟩, none, [⟨"s", true, some (.literal (.string "v"))⟩], [], false, false⟩,
    .type ⟨⟨"A"⟩, none, [], [⟨"B::.cctor", [], true, none, true, .straight []⟩], false, false⟩,
    .function ⟨"f", [], true, none, false, .straight [
      ⟨.return (some (.staticLoad ⟨"A::B"⟩ "s")), none⟩]⟩]⟩

/-- The last event is a load where the initializer of the field is not running, and nothing has been
stored to the field. -/
def loadsEarly : List FieldEvent → Bool
  | .loaded field _ :: earlier => !isRunning field.statics earlier && earlier.all fun
    | .stored other _ _ => other != field
    | _ => true
  | _ => false

/-- **If another body has the key of an initializer** it runs in place of the initializer, and a field
is loaded that has never been stored. -/
theorem exists_lost_initializer :
    ∃ program later place value earlier,
      compile (.ofPreset .release) [namesakeInitializer] = .ok program ∧
      program.diagnostics = [] ∧ program.table.TrimsNames ∧ program.table.DistinctFields ∧
      program.table.Unconditional ∧
      (Image.load program).record 20 4 1 [(0, .call "f" [])] =
        later ++ .loaded place value :: earlier ∧
      isRunning place.statics earlier = false ∧
      ∀ key, ¬ StoredBy key place earlier := by
  have compiled : (compiled? (.ofPreset .release) [namesakeInitializer]).map (fun program =>
      (program.diagnostics.isEmpty,
        program.table.types.all fun entry => trimRoot entry.name.text == entry.name.text,
        decide program.table.DistinctFields, decide program.table.Unconditional,
        ((Image.load program).record 20 4 1 [(0, .call "f" [])]).tails.any loadsEarly)) =
      some (true, true, true, true, true) := by decide +kernel
  obtain ⟨program, compiled, facts⟩ := Option.map_eq_some_iff.mp compiled
  simp only [Prod.mk.injEq, List.isEmpty_iff, List.all_eq_true, List.any_eq_true, beq_iff_eq,
    decide_eq_true_eq] at facts
  obtain ⟨clean, trims, distinct, unconditional, events, tail, early⟩ := facts
  obtain ⟨later, happened⟩ := (List.mem_tails _ _).mp tail
  unfold loadsEarly at early
  split at early
  case h_2 => cases early
  case h_1 place value earlier =>
    rw [Bool.and_eq_true, Bool.not_eq_true', List.all_eq_true] at early
    obtain ⟨idle, unstored⟩ := early
    refine ⟨program, later, place, value, earlier, compile_of_compiled? compiled, clean, trims,
      distinct, unconditional, happened.symm, idle, fun key ⟨stored, mem⟩ => ?_⟩
    simpa using unstored _ mem

end Program

end StackScript
