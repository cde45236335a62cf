import StackScript.Proofs.Evaluation.Shortcut
import StackScript.Proofs.Machine.Histories
import StackScript.Proofs.Program.Sites
import StackScript.Proofs.Writing.Quiet

/-!
# Contexts of one program do not interfere

The contexts of a loaded program share its types, its call sites and the static fields that need no
context. In a program whose routines never store to such fields, and in which nothing but a type
initializer goes by the key of one, that cannot be noticed: what a host gets from one context is
what it would get if there were no other.

## Main definitions

* `Program.IsInitializerKey`: the keys of type initializers
* `Program.ReservesInitializers`: nothing else goes by such a key
* `Program.confinement`: the routines of such a program

## Main results

* `Program.contexts_apart`: the replies to the requests in one context do not depend on the others
* `Program.exists_interference`: they may if such a key is used otherwise
-/

namespace StackScript

variable {body : Body} {item : WorkItem} {table : Table}

/-! ## Keys of initializers -/

namespace BodyName

variable (type : QualifiedName)

/-- Keys without a place end in the name of the member. -/
theorem toList_key_method (member : String) :
    (method type member).key.toList =
      type.key.toList ++ ':' :: ':' :: (Text.foldCase member).toList := by
  rw [toList_key]
  simp [stem, tag, method]

/-- The tag of a place ends in a digit. -/
theorem isDigit_last_site? {placement : Placement} {site : String}
    (h : placement.site? = some site) :
    ∃ c, (Text.foldCase site).toList.getLast? = some c ∧ c.isDigit = true := by
  unfold Placement.site? at h
  split at h <;> cases h
  have digits (c) (mem : c ∈ (toString placement.origin.item).toList) : c.isDigit = true := by
    rw [Placement.toList_toString] at mem
    exact Nat.isDigit_of_mem_toDigits (by decide) (by decide) mem
  have some : (toString placement.origin.item).toList ≠ [] := by
    rw [Placement.toList_toString]
    exact Nat.toDigits_ne_nil
  refine ⟨_, ?_, digits _ (List.getLast_mem some)⟩
  rw [Text.toList_foldCase, String.toList_append, List.map_append,
    List.getLast?_append_of_ne_nil _ (by simp), List.getLast?_map,
    List.getLast?_eq_some_getLast some]
  exact congrArg Option.some (Placement.isFolded_of_mem_toString (List.getLast_mem some)).1

/-- Where the name of a member does not end in a digit, a key without a place can only belong to an
initializer without one. -/
theorem parts_of_initializer_key {type : QualifiedName} {entry : TypeEntry} {member : String}
    {c : Char} (last : (Text.foldCase member).toList.getLast? = some c) (letter : c.isDigit = false)
    (h : (method type member).key = (entry.bodyName typeInitializerName).key) :
    type.key.toList ++ ':' :: ':' :: (Text.foldCase member).toList =
      entry.name.key.toList ++ ':' :: ':' :: (Text.foldCase typeInitializerName).toList := by
  cases place : entry.placement.site? with
  | none =>
    rw [TypeEntry.bodyName, place] at h
    rw [← toList_key_method, ← toList_key_method, h]
    rfl
  | some site =>
    obtain ⟨d, ends, digit⟩ := isDigit_last_site? place
    rw [TypeEntry.bodyName, place] at h
    have same := congrArg (·.toList.getLast?) h
    rw [toList_key_method, toList_key] at same
    simp only [List.getLast?_append, List.getLast?_cons, last, atSite, tag, ends, Option.getD_some,
      Option.some_or, Option.some.injEq] at same
    rw [same, digit] at letter
    cases letter

/-- Constructors have keys of their own. -/
theorem constructor_key_ne (entry : TypeEntry) :
    (constructor type).key ≠ (entry.bodyName typeInitializerName).key := by
  intro h
  have parts := parts_of_initializer_key (c := 'r') (by decide +kernel) rfl h
  have ends := congrArg List.reverse parts
  simp [Text.toList_foldCase, constructorName, typeInitializerName] at ends

/-- The initializers of the static fields of a context have keys of their own. -/
theorem statics_key_ne (entry : TypeEntry) :
    (method type staticsInitializerName).key ≠ (entry.bodyName typeInitializerName).key := by
  intro h
  have parts := parts_of_initializer_key (c := '>') (by decide +kernel) rfl h
  have ends := congrArg List.reverse parts
  simp [Text.toList_foldCase, staticsInitializerName, typeInitializerName] at ends

/-- The key of an initializer without a place tells its type. -/
theorem type_of_initializer_key {type : QualifiedName} {entry : TypeEntry}
    (h : (method type typeInitializerName).key = (entry.bodyName typeInitializerName).key) :
    type.key = entry.name.key :=
  String.toList_inj.mp (List.append_cancel_right
    (parts_of_initializer_key (c := 'r') (by decide +kernel) rfl h))

end BodyName

/-! ## Initializers of a program -/

/-- The names of types are written without leading backslashes, as names are read. -/
def Table.TrimsNames (table : Table) : Prop :=
  ∀ entry ∈ table.types, trimRoot entry.name.text = entry.name.text

theorem Table.TrimsNames.key (h : table.TrimsNames) {entry : TypeEntry} (mem : entry ∈ table.types) :
    entry.name.key = nameKey entry.name.text := by
  rw [nameKey, h entry mem, QualifiedName.key]

/-- The type of a static field that is found is one of the table. -/
theorem Table.mem_of_resolveStatic? {type field : String} {entry : TypeEntry}
    (h : table.resolveStatic? type field = some entry) : entry ∈ table.types := by
  unfold resolveStatic? at h
  split at h
  · cases h
  · next start found =>
    have there : start ∈ table.types := by
      obtain found | ⟨-, found⟩ := Option.or_eq_some_iff.mp found
      · exact List.mem_of_find?_eq_some found
      · exact List.mem_of_find?_eq_some found
    obtain rfl | found := mem_baseChain (List.mem_of_find?_eq_some h)
    · exact there
    · exact found.mem

/-- A body that is found by its key is one of the program, and has the key. -/
theorem Program.mem_of_body? {program : Program} {key : String}
    (h : (Image.load program).body? key = some body) :
    body ∈ program.bodies ∧ body.name.key = key := by
  obtain ⟨⟨other, body⟩, found, rfl⟩ := Option.map_eq_some_iff.mp h
  have mem := List.mem_of_find?_eq_some found
  simp only [Image.load, List.mem_reverse, List.mem_map] at mem
  obtain ⟨_, mem, same⟩ := mem
  cases same
  have named := List.find?_some found
  exact ⟨mem, eq_of_beq named⟩

/-- A body of the kind is the initializer of the shared static fields of a type. -/
theorem WorkItem.sharedInitializer_of_kind {settings : Settings} {n : SiteId}
    (h : (item.compile table settings n).1 = .ok body) (kind : body.kind = .typeInitializer) :
    ∃ entry, item = .sharedInitializer entry := by
  cases item with
  | routine =>
    obtain ⟨_, _, -, -, rfl⟩ := exists_layout_of_compileRoutine h
    cases kind
  | sharedInitializer entry => exact ⟨entry, rfl⟩
  | constructor | boundInitializer | invoke =>
    obtain ⟨_, _, -, -, rfl⟩ := exists_assembled_of_compileMember h
    cases kind

/-- The type of an initializer is one of the table. -/
theorem WorkItem.mem_types_of_initializer {entry : TypeEntry}
    (initializes : item = .sharedInitializer entry ∨ item = .boundInitializer entry)
    (h : item ∈ all table) : entry ∈ table.types := by
  obtain mem | mem := List.mem_append.mp h
  · obtain ⟨_, -, rfl⟩ := List.mem_map.mp mem
    rcases initializes with own | own <;> cases own
  · obtain ⟨t, there, mem⟩ := List.mem_flatMap.mp mem
    have own : entry = t := by
      rcases initializes with rfl | rfl <;>
      · simp only [ofType, List.mem_append, List.mem_map, List.mem_singleton,
          List.mem_ite_nil_right, reduceCtorEq, and_false, exists_false, sharedInitializer.injEq,
          boundInitializer.injEq, false_or, or_false] at mem
        exact mem.2
    exact own ▸ there

/-- The instruction stores to a static field that all contexts share. -/
def Instruction.storesShared : Instruction → Bool
  | .storeShared _ _ => true
  | _ => false

namespace Program

variable {settings : Settings} {units : List SourceUnit} {program : Program} {body : Body}
    {key : String}

/-- The initializers of shared static fields store to the fields of their types. -/
theorem exists_entry_of_kind (h : compile settings units = .ok program) (mem : body ∈ program.bodies)
    (kind : body.kind = .typeInitializer) : ∃ entry ∈ program.table.types,
      body.name = entry.bodyName BodyName.typeInitializerName ∧
      body.Quiet (nameKey entry.name.text) := by
  obtain ⟨item, own, n, compiled⟩ := exists_item h mem
  obtain ⟨entry, rfl⟩ := WorkItem.sharedInitializer_of_kind compiled kind
  exact ⟨entry, WorkItem.mem_types_of_initializer (.inl rfl) own,
    (WorkItem.name_of_compile compiled).1, WorkItem.quiet_of_compile compiled⟩

/-- The key of the initializer of the shared static fields of a type of the program, or the one under
which it is looked for. -/
def IsInitializerKey (program : Program) (key : String) : Prop :=
  ∃ entry ∈ program.table.types, key = (entry.bodyName BodyName.typeInitializerName).key ∨
    key = (BodyName.method entry.name BodyName.typeInitializerName).key

instance (key : String) : Decidable (program.IsInitializerKey key) :=
  inferInstanceAs (Decidable (∃ entry ∈ program.table.types, _ ∨ _))

/-- **Nothing but a type initializer goes by the key of one**: no other body has such a key, no call
has it for its target, and no method has it. -/
structure ReservesInitializers (program : Program) : Prop where
  bodies : ∀ body ∈ program.bodies, program.IsInitializerKey body.name.key →
    body.kind = .typeInitializer
  calls : ∀ body ∈ program.bodies, ∀ i ∈ body.code, ∀ call ∈ i.callee?,
    ¬ program.IsInitializerKey call.1.key
  methods : ∀ entry ∈ program.table.types, ∀ method ∈ entry.methods,
    ¬ program.IsInitializerKey (BodyName.method entry.name method.name).key

/-- Only type initializers store to static fields that all contexts share. -/
def StoresByInitializers (program : Program) : Prop :=
  ∀ body ∈ program.bodies, body.kind ≠ .typeInitializer → ∀ i ∈ body.code.toList,
    i.storesShared = false

instance : Decidable program.StoresByInitializers :=
  inferInstanceAs (Decidable (∀ body ∈ program.bodies, _ → _))

instance : Decidable program.ReservesInitializers :=
  decidable_of_iff ((∀ body ∈ program.bodies, program.IsInitializerKey body.name.key →
      body.kind = .typeInitializer) ∧
    (∀ body ∈ program.bodies, ∀ i ∈ body.code.toList, ∀ call ∈ i.callee?,
      ¬ program.IsInitializerKey call.1.key) ∧
    ∀ entry ∈ program.table.types, ∀ method ∈ entry.methods,
      ¬ program.IsInitializerKey (BodyName.method entry.name method.name).key)
    ⟨fun ⟨bodies, calls, methods⟩ => ⟨bodies, fun body mem i own =>
        calls body mem i (Array.mem_toList_iff.mpr own), methods⟩,
      fun reserved => ⟨reserved.bodies, fun body mem i own =>
        reserved.calls body mem i (Array.mem_toList_iff.mp own), reserved.methods⟩⟩

/-- A body whose key is not that of an initializer is not one. -/
theorem kind_of_body? (h : compile settings units = .ok program)
    (found : (Image.load program).body? key = some body) (other : ¬ program.IsInitializerKey key) :
    body ∈ program.bodies ∧ body.kind ≠ .typeInitializer := by
  obtain ⟨mem, rfl⟩ := mem_of_body? found
  refine ⟨mem, fun kind => other ?_⟩
  obtain ⟨entry, there, name, -⟩ := exists_entry_of_kind h mem kind
  exact ⟨entry, there, .inl (congrArg BodyName.key name)⟩

/-- A body whose key no initializer has is not one. -/
theorem kind_of_key_ne (h : compile settings units = .ok program)
    (found : (Image.load program).body? key = some body)
    (other : ∀ entry : TypeEntry, key ≠ (entry.bodyName BodyName.typeInitializerName).key) :
    body ∈ program.bodies ∧ body.kind ≠ .typeInitializer := by
  obtain ⟨mem, rfl⟩ := mem_of_body? found
  refine ⟨mem, fun kind => ?_⟩
  obtain ⟨entry, -, name, -⟩ := exists_entry_of_kind h mem kind
  exact other entry (congrArg BodyName.key name)

/-- The initializers of shared static fields are quiet. -/
theorem initializesQuietly (h : compile settings units = .ok program)
    (trims : program.table.TrimsNames) (reserved : program.ReservesInitializers) {entry : TypeEntry}
    (mem : entry ∈ program.table.types) :
    (Image.load program).InitializesQuietly entry.name.text := by
  intro body found
  obtain ⟨there, key⟩ := mem_of_body? found
  have key : body.name.key = (BodyName.method entry.name BodyName.typeInitializerName).key := by
    rw [key, ← trims.key mem]
    simp [BodyName.key, BodyName.method]
  have kind := reserved.bodies body there ⟨entry, mem, .inr key⟩
  obtain ⟨declaring, declares, name, quiet⟩ := exists_entry_of_kind h there kind
  have same := BodyName.type_of_initializer_key (key.symm.trans (congrArg BodyName.key name))
  rwa [← trims.key declares, ← same, trims.key mem] at quiet

/-- **The methods of objects** are declared by types of the program. -/
theorem exists_method_of_level {table : Table} {entry : TypeEntry} (acyclic : table.Acyclic)
    (found : table.Found entry) {level : TypeLevel} (own : level ∈ (table.loadType entry).levels)
    {method : Method}
    (there : method ∈ level.methods) : ∃ t ∈ table.types, ∃ declared ∈ t.methods,
      method.routine = .compiled (BodyName.method t.name declared.name).key method.formals := by
  obtain ⟨line, walk⟩ := acyclic.exists_line found.mem
  rw [walk.levels_loadType acyclic found.first] at own
  obtain ⟨t, mem, rfl⟩ := List.mem_map.mp own
  obtain ⟨declared, instance_methods, rfl⟩ := List.mem_map.mp there
  exact ⟨t, (walk.found found t mem).mem, declared, List.mem_of_mem_filter instance_methods, rfl⟩

/-- The number of a call site tells its shape. -/
theorem shape_eq_of_id (h : compile settings units = .ok program) {body' : Body}
    (mem : body ∈ program.bodies) (mem' : body' ∈ program.bodies) {shape other : SiteShape}
    (own : .callSite shape ∈ body.code) (own' : .callSite other ∈ body'.code)
    (same : shape.id = other.id) : shape = other := by
  have listed {body : Body} {shape : SiteShape} (mem : body ∈ program.bodies)
      (own : .callSite shape ∈ body.code) : shape ∈ program.bodies.flatMap (·.callSites) := by
    obtain ⟨item, -, n, compiled⟩ := exists_item h mem
    refine List.mem_flatMap.mpr ⟨body, mem, ?_⟩
    rw [(item.sitesInOrder_of_compile compiled).listed]
    exact List.mem_filterMap.mpr ⟨_, Array.mem_toList_iff.mpr own, rfl⟩
  have rising : ((program.bodies.flatMap (·.callSites)).map (·.id)).Pairwise (· < ·) := by
    rw [(eq_ofResults_of_compile h).2]
    exact rising_of_compileItems 0 _
  exact List.inj_on_of_nodup_map (rising.imp fun lt => Nat.ne_of_lt lt) (listed mem own)
    (listed mem' own') same

/-- **Code of a routine** keeps away from what contexts share. -/
theorem confined_of_mem (h : compile settings units = .ok program) (trims : program.table.TrimsNames)
    (stores : program.StoresByInitializers) (reserved : program.ReservesInitializers)
    (mem : body ∈ program.bodies) (kind : body.kind ≠ .typeInitializer) {i : Instruction}
    (own : i ∈ body.code) :
    i.Confined (Image.load program)
      (fun body => body ∈ program.bodies ∧ body.kind ≠ .typeInitializer)
      (fun shape => ∃ body ∈ program.bodies, .callSite shape ∈ body.code) := by
  obtain ⟨item, there, n, compiled⟩ := exists_item h mem
  obtain ⟨front, bears⟩ := item.exists_bears_of_compile compiled
  obtain ⟨m, at_⟩ := Array.getElem?_of_mem own
  obtain ⟨a, fine, -⟩ := bears.fine m i at_
  cases i with
  | loadShared type field =>
    -- The access is one that the table resolved, so the name in it is that of an entry.
    suffices named : type.key = nameKey type.text ∧
      (Image.load program).InitializesQuietly type.text from named
    have admits := fine.admits rfl
    generalize a.cells = cells at admits
    generalize loads : Instruction.loadShared type field = i at admits
    cases admits with
    | inward inward => rw [← loads] at inward; cases inward
    | function | method | base | conditionalBase | initializer | create | conditionalCreate
    | sharedStore | boundStore => cases loads
    | @static _ _ entry _ store found =>
      have mem := Table.mem_of_resolveStatic? found
      unfold staticAccess at loads
      split at loads <;> cases loads
      exact ⟨trims.key mem, initializesQuietly h trims reserved mem⟩
  | storeShared type field =>
    exact Bool.noConfusion (stores body mem kind _ (Array.mem_toList_iff.mpr own))
  | loadBound | storeBound =>
    exact fun body found => kind_of_key_ne h found (BodyName.statics_key_ne _)
  | newObject => exact fun body found => kind_of_key_ne h found (BodyName.constructor_key_ne _)
  | call callee argc onObject =>
    exact fun body' found => kind_of_body? h found (reserved.calls body mem _ own _ rfl)
  | callSite shape => exact ⟨body, mem, own⟩
  | _ => trivial

/-- **The routines of a program** keep away from what contexts share. -/
def confinement (h : compile settings units = .ok program) (trims : program.table.TrimsNames)
    (stores : program.StoresByInitializers) (reserved : program.ReservesInitializers) :
    (Image.load program).Confinement where
  bodies body := body ∈ program.bodies ∧ body.kind ≠ .typeInitializer
  shapes shape := ∃ body ∈ program.bodies, .callSite shape ∈ body.code
  types := program.table.typeOf
  known := Image.known_load program
  code body given i own := confined_of_mem h trims stores reserved given.1 given.2 own
  methods type given level own method there := by
    obtain ⟨name, found⟩ := given
    have acyclic := Image.acyclic_of_type?_load found
    rw [Image.type?_load acyclic] at found
    obtain ⟨entry, named, rfl⟩ := Option.map_eq_some_iff.mp found
    obtain ⟨t, declares, declared, mem, routine⟩ :=
      exists_method_of_level acyclic ⟨_, named⟩ own there
    rw [routine]
    exact fun body found => kind_of_body? h found (reserved.methods t declares declared mem)
  distinct shape own other own' same := by
    obtain ⟨body, mem, own⟩ := own
    obtain ⟨body', mem', own'⟩ := own'
    exact shape_eq_of_id h mem mem' own own' same

/-- **Contexts do not interfere.** The replies that a context gets among those of other contexts are
those that it gets if nothing is asked of the others, with a bounded amount of fuel more: it may have
to run initializers that another context has run for it. -/
theorem contexts_apart (h : compile settings units = .ok program)
    (trims : program.table.TrimsNames) (stores : program.StoresByInitializers)
    (reserved : program.ReservesInitializers) :
    ∃ enough, ∀ cacheSize contexts fuel visits replies after,
      (∀ visit ∈ visits, visit.2.Bare ∧ ¬ program.IsInitializerKey visit.2.key) →
      (Image.load program).serve fuel visits (.withContexts cacheSize contexts) =
        some (replies, after) →
      ∀ id, ∃ (p : Pairing (Image.load program).HasType) (replies' : List (ContextId × Reply))
          (after' : Memory),
        (Image.load program).serve (fuel + enough) (visits.filter (·.1 == id))
          (.withContexts cacheSize contexts) = some (replies', after') ∧
        List.Forall₂ (fun reply reply' => reply.1 = reply'.1 ∧ reply.2.Mirrors p reply'.2)
          (replies.filter (·.1 == id)) replies' := by
  obtain ⟨enough, settles⟩ := (Image.load program).exists_settle_of_ends
  refine ⟨enough, fun cacheSize contexts fuel visits replies after modest served id => ?_⟩
  have keeps := (confinement h trims stores reserved).keeps_withContexts cacheSize contexts
  obtain ⟨p, replies', after', -, served', mirrored⟩ :=
    Image.Confinement.exists_serve settles keeps (fun visit mem => (modest visit mem).1)
      (fun visit mem body found => kind_of_body? h found (modest visit mem).2) served id
  exact ⟨p, replies', after', served', mirrored⟩

/-- A type with a field that is the same for all contexts, and a function that hands it to a method of
a new object. -/
def greeting : SourceUnit :=
  ⟨"a.php", [
    .type ⟨⟨"T"⟩, none, [⟨"s", true, some (.literal (.string "v"))⟩],
      [⟨"m", [⟨"x", .value .value, none⟩], false, none, false, .straight [
        ⟨.echo (.var "x"), none⟩, ⟨.return (some .this), none⟩]⟩], false, false⟩,
    .function ⟨"f", [], true, none, false, .straight [⟨.return (some (.methodCall
      (.create ⟨"T"⟩ []) (.direct "m") [.plain (.staticLoad ⟨"T"⟩ "s")] none)), none⟩]⟩]⟩

/-- A call in two contexts, and a declaration in the first. -/
def greetings : List (ContextId × HostRequest) :=
  [(0, .call "f" []), (1, .call "f" []), (0, .declare "f")]

/-- The second context gets its object and its output though the first has initialized the field, and
the call site knows the method. -/
theorem contexts_apart_greetings :
    ∃ program replies after,
      compile (.ofPreset .release) [greeting] = .ok program ∧ program.table.TrimsNames ∧
      program.StoresByInitializers ∧ program.ReservesInitializers ∧
      (∀ visit ∈ greetings, visit.2.Bare ∧ ¬ program.IsInitializerKey visit.2.key) ∧
      (Image.load program).serve 20 greetings (.withContexts 4 2) = some (replies, after) ∧
      ∃ (enough : Nat) (p : Pairing (Image.load program).HasType)
          (replies' : List (ContextId × Reply)) (after' : Memory),
        (Image.load program).serve (20 + enough) [(1, .call "f" [])] (.withContexts 4 2) =
          some (replies', after') ∧
        List.Forall₂ (fun reply reply' => reply.1 = reply'.1 ∧ reply.2.Mirrors p reply'.2)
          (replies.filter (·.1 == 1)) replies' := by
  have compiled : (compiled? (.ofPreset .release) [greeting]).map (fun program =>
      (program.table.types.all fun entry => trimRoot entry.name.text == entry.name.text,
        decide program.StoresByInitializers, decide program.ReservesInitializers,
        greetings.all fun visit => !decide (program.IsInitializerKey visit.2.key),
        ((Image.load program).serve 20 greetings (.withContexts 4 2)).isSome)) =
      some (true, true, true, true, true) := by decide +kernel
  obtain ⟨program, compiled, facts⟩ := Option.map_eq_some_iff.mp compiled
  simp only [Prod.mk.injEq, List.all_eq_true, beq_iff_eq, decide_eq_true_eq, Bool.not_eq_true',
    decide_eq_false_iff_not] at facts
  obtain ⟨trims, stores, reserved, others, ends⟩ := facts
  obtain ⟨⟨replies, after⟩, served⟩ := Option.isSome_iff_exists.mp ends
  have compiled := compile_of_compiled? compiled
  have bare : ∀ visit ∈ greetings, visit.2.Bare := by simp [greetings, HostRequest.Bare]
  have modest := fun visit mem => And.intro (bare visit mem) (others visit mem)
  obtain ⟨enough, apart⟩ := contexts_apart compiled trims stores reserved
  exact ⟨program, replies, after, compiled, trims, stores, reserved, modest, served, enough,
    apart 4 2 20 greetings replies after modest served 1⟩

/-- What is asked of the first of two contexts shows in the replies in the second: these are not those
that it gets alone. -/
def Interferes (program : Program) (visits : List (ContextId × HostRequest)) : Prop :=
  ∃ replies after replies' after',
    (Image.load program).serve 20 visits (.withContexts 4 2) = some (replies, after) ∧
    (Image.load program).serve 20 (visits.filter (·.1 == 1)) (.withContexts 4 2) =
      some (replies', after') ∧
    ∀ p : Pairing (Image.load program).HasType, ¬ List.Forall₂
      (fun reply reply' => reply.1 = reply'.1 ∧ reply.2.Mirrors p reply'.2)
      (replies.filter (·.1 == 1)) replies'

/-- What can be seen of a reply: whether it is null, and the output. -/
def seen (reply : ContextId × Reply) : Bool × String :=
  ((match reply.2.outcome with | .ok .null => true | _ => false), reply.2.output)

theorem seen_eq_of_mirrors {Given : RuntimeType → Prop} {p : Pairing Given}
    {reply reply' : ContextId × Reply} (h : reply.2.Mirrors p reply'.2) :
    seen reply = seen reply' := by
  obtain ⟨_, outcome, output⟩ := reply
  obtain ⟨_, outcome', output'⟩ := reply'
  obtain ⟨outcomes, same⟩ := h
  obtain rfl : output = output' := same
  refine Prod.ext ?_ rfl
  cases outcomes with
  | error => rfl
  | ok values => cases values <;> rfl

/-- Whether the replies in the second of two contexts look as if it were alone. -/
def looksAlone? (program : Program) (visits : List (ContextId × HostRequest)) : Option Bool := do
  let (replies, _) ← (Image.load program).serve 20 visits (.withContexts 4 2)
  let (replies', _) ←
    (Image.load program).serve 20 (visits.filter (·.1 == 1)) (.withContexts 4 2)
  return (replies.filter (·.1 == 1)).map seen == replies'.map seen

theorem interferes_of_looksAlone? {visits : List (ContextId × HostRequest)}
    (h : program.looksAlone? visits = some false) : program.Interferes visits := by
  obtain ⟨⟨replies, after⟩, served, h⟩ := Option.bind_eq_some_iff.mp h
  obtain ⟨⟨replies', after'⟩, served', h⟩ := Option.bind_eq_some_iff.mp h
  refine ⟨replies, after, replies', after', served, served', fun p mirrored => ?_⟩
  refine ne_of_beq_false (Option.some.inj h) (List.forall₂_eq_eq_eq ▸ ?_)
  exact List.forall₂_map_left_iff.mpr (List.forall₂_map_right_iff.mpr
    (mirrored.imp fun _ _ both => seen_eq_of_mirrors both.2))

/-- A type that is declared only when the program runs, a function that reads its field, and maybe
another one. -/
def lateField (others : List Item) : SourceUnit :=
  ⟨"a.php", [
    .conditional [.type ⟨⟨"T"⟩, none, [⟨"s", true, some (.literal (.string "v"))⟩], [], false,
      false⟩],
    .function ⟨"f", [], true, none, false, .straight [⟨.return (some (.staticLoad ⟨"T"⟩ "s")),
      none⟩]⟩] ++ others⟩

/-- A function that goes by the key of an initializer. -/
def namesake : Item :=
  .function ⟨"T::.cctor", [], true, none, false, .straight [⟨.echo (.literal (.string "x")), none⟩]⟩

/-- **Contexts interfere** if a host runs a type initializer itself, or another body goes by the key
of one, though only type initializers store to what contexts share. -/
theorem exists_interference :
    (∃ program, compile (.ofPreset .release) [lateField []] = .ok program ∧
      program.diagnostics = [] ∧ (∀ entry ∈ program.table.types, entry.base = none) ∧
      program.StoresByInitializers ∧ program.ReservesInitializers ∧
      program.Interferes [(0, .call "T::.cctor@a.php#0" []), (1, .call "f" [])]) ∧
    ∃ program, compile (.ofPreset .release) [lateField [namesake]] = .ok program ∧
      program.diagnostics = [] ∧ (∀ entry ∈ program.table.types, entry.base = none) ∧
      program.StoresByInitializers ∧ ¬ program.IsInitializerKey "f" ∧
      program.Interferes [(0, .call "f" []), (1, .call "f" [])] := by
  have first : (compiled? (.ofPreset .release) [lateField []]).map (fun program =>
      (decide (program.diagnostics = []),
        decide (∀ entry ∈ program.table.types, entry.base.isNone = true),
        decide program.StoresByInitializers, decide program.ReservesInitializers,
        program.looksAlone? [(0, .call "T::.cctor@a.php#0" []), (1, .call "f" [])])) =
      some (true, true, true, true, some false) := by decide +kernel
  have second : (compiled? (.ofPreset .release) [lateField [namesake]]).map (fun program =>
      (decide (program.diagnostics = []),
        decide (∀ entry ∈ program.table.types, entry.base.isNone = true),
        decide program.StoresByInitializers, decide (program.IsInitializerKey "f"),
        program.looksAlone? [(0, .call "f" []), (1, .call "f" [])])) =
      some (true, true, true, false, some false) := by decide +kernel
  obtain ⟨program, compiled, facts⟩ := Option.map_eq_some_iff.mp first
  obtain ⟨other, compiled', facts'⟩ := Option.map_eq_some_iff.mp second
  simp only [Prod.mk.injEq, decide_eq_true_eq, decide_eq_false_iff_not,
    Option.isNone_iff_eq_none] at facts facts'
  obtain ⟨clean, bases, stores, reserved, unlike⟩ := facts
  obtain ⟨clean', bases', stores', key, unlike'⟩ := facts'
  exact ⟨⟨program, compile_of_compiled? compiled, clean, bases, stores, reserved,
      interferes_of_looksAlone? unlike⟩,
    other, compile_of_compiled? compiled', clean', bases', stores', key,
      interferes_of_looksAlone? unlike'⟩

end Program

end StackScript
