import StackScript.Proofs.Program.Construction
import StackScript.Proofs.Program.Fronts
import StackScript.Proofs.Program.Independence

/-!
# Callers and callees

A call names a body by its key and passes a number of arguments. In a compiled program there is an
item whose body has that key and takes so many; the item has a body, or a diagnostic says why not.
Whenever a frame comes to the call, the values on its stack are what that body asks for.

## Main definitions

* `Declared.Linkable`, `Table.KnowsBases`: declarations that are called as they are compiled
* `Passes`: the values of a call on the stack
* `Program.Links`: an item that a call can mean

## Main results

* `Program.linked`: every call and every creation in every body means an item, and passes it what
  it asks for
-/

namespace StackScript

variable {a : Shape} {stack : List Slot}

/-! ## Values of a call -/

/-- **The values of a call are on the stack**: one for each parameter, the last on top, with the
context where it is asked for; below them the context, and the receiver if there is one. -/
def Passes (params : List Parameter) (onObject : Bool) (stack : List Slot) : Prop :=
  ∃ args below, stack = args.reverse ++ Slot.context :: below ∧
    List.Forall₂ (fun param arg => param.isContext = true → arg = Slot.context) params args ∧
    (onObject = true → ∃ receiver rest, below = receiver :: rest)

/-- A value is as is known. -/
def Operand.Describes (cell : Operand) (slot : Slot) : Prop := cell = .context → slot = .context

theorem Shape.Describes.forall₂ (h : a.Describes stack) :
    List.Forall₂ (fun slot cell => Operand.Describes cell slot) stack a.cells := by
  refine List.forall₂_iff_get.mpr ⟨h.length, fun n lt lt' context => ?_⟩
  have known : a.cells[n]? = some .context := by
    rw [List.getElem?_eq_getElem lt']
    exact congrArg some context
  have there := h.context known
  rw [List.getElem?_eq_getElem lt] at there
  exact Option.some.inj there

/-- What is asked for is passed. -/
theorem passes_of_describes {params : List Parameter} {below : List Operand} {onObject : Bool}
    (h : a.Describes stack) (cells : a.cells = framed params below)
    (receiver : onObject = true → ∃ rest, below = .any :: rest) : Passes params onObject stack := by
  have each := h.forall₂
  rw [cells, framed] at each
  have top := List.forall₂_take_append _ _ _ each
  have rest := List.forall₂_drop_append _ _ _ each
  generalize (params.map Parameter.cell).reverse.length = n at top rest
  rw [← List.take_append_drop n stack]
  generalize stack.take n = upper at top ⊢
  cases dropped : stack.drop n with
  | nil =>
    rw [dropped] at rest
    cases rest
  | cons first under =>
    rw [dropped] at rest
    obtain ⟨same, rest⟩ := List.forall₂_cons.mp rest
    refine ⟨upper.reverse, under, by rw [List.reverse_reverse, same rfl], ?_, fun object => ?_⟩
    · rw [← List.reverse_reverse upper, List.forall₂_reverse_iff, List.forall₂_map_right_iff] at top
      refine top.flip.imp fun param arg known context => known ?_
      rw [Parameter.cell, if_pos context]
    · obtain ⟨others, rfl⟩ := receiver object
      cases rest with
      | cons => exact ⟨_, _, rfl⟩

/-! ## Instructions -/

namespace Instruction

variable {i : Instruction} {callee : BodyName} {type : QualifiedName} {argc : Nat} {onObject : Bool}

/-- What an instruction calls, with how many arguments, and whether on an object. -/
def callee? : Instruction → Option (BodyName × Nat × Bool)
  | .call callee argc onObject => some (callee, argc, onObject)
  | _ => none

/-- What an instruction creates, with how many arguments. -/
def created? : Instruction → Option (QualifiedName × Nat)
  | .newObject type argc => some (type, argc)
  | _ => none

theorem eq_of_callee? (h : i.callee? = some (callee, argc, onObject)) :
    i = .call callee argc onObject := by
  cases i <;> cases h
  rfl

theorem eq_of_created? (h : i.created? = some (type, argc)) : i = .newObject type argc := by
  cases i <;> cases h
  rfl

end Instruction

/-! ## Declarations -/

/-- A function is static and has no owner, and the methods of a type are its own. -/
def Declared.Linkable : Declared → Prop
  | .function routine => routine.owner = none ∧ routine.isStatic = true
  | .type declaration => declaration.OwnsMethods

/-- No base of a type is declared only when the program runs. -/
def Table.KnowsBases (table : Table) : Prop :=
  ∀ entry ∈ table.types, ∀ base ∈ entry.base, table.declaresType base.text = true →
    (table.type? base.text).isSome = true

section Declarations

variable {table : Table} {entry t : TypeEntry} {method : Routine} {name : String}

/-- The bases of a type are found. -/
theorem Table.found_of_mem_basesFrom {steps : Nat} {seen : List String}
    (mem : t ∈ table.basesFrom steps seen entry) : table.Found t := by
  induction steps generalizing seen entry with
  | zero => cases mem
  | succ steps ih =>
    unfold basesFrom at mem
    split at mem
    case h_1 => cases mem
    case h_2 base _ =>
      split at mem
      case h_1 => cases mem
      case h_2 next found =>
        split at mem
        · cases mem
        · obtain rfl | mem := List.mem_cons.mp mem
          · exact ⟨_, found⟩
          · exact ih mem

/-- What comes of a type's bases is the type itself, or found. -/
theorem Table.mem_baseChain (mem : t ∈ table.baseChain entry) : t = entry ∨ table.Found t :=
  (List.mem_cons.mp mem).imp_right found_of_mem_basesFrom

theorem Table.mem_of_method? (h : entry.method? name = some method) : method ∈ entry.methods :=
  List.mem_of_find?_eq_some h

/-- A method that is found along the bases of a type is declared by the type itself or by one that
is found. -/
theorem Table.declared_of_baseChain
    (h : ((table.baseChain entry).findSome? fun t => (t.method? name).map fun method =>
      (t, method)) = some (t, method)) :
    (t = entry ∨ table.Found t) ∧ method ∈ t.methods := by
  obtain ⟨declaring, chain, own⟩ := List.exists_of_findSome?_eq_some h
  obtain ⟨_, declared, same⟩ := Option.map_eq_some_iff.mp own
  cases same
  exact ⟨mem_baseChain chain, mem_of_method? declared⟩

/-- The initializer of a type is declared by the type itself or by one that is found. -/
theorem Table.mem_of_resolveInitializer? (mem : entry ∈ table.types)
    (h : table.resolveInitializer? entry = some (t, method)) :
    t ∈ table.types ∧ method ∈ t.methods :=
  (declared_of_baseChain h).imp_left fun own => own.elim (· ▸ mem) Found.mem

/-- A method that is found by name is declared by a type that is found. -/
theorem Table.found_of_resolveMethod? {type : String}
    (h : table.resolveMethod? type name = some (t, method)) :
    table.Found t ∧ method ∈ t.methods := by
  unfold resolveMethod? at h
  split at h
  case h_1 => cases h
  case h_2 entry found =>
    exact (declared_of_baseChain h).imp_left fun own => own.elim (· ▸ ⟨_, found⟩) id

end Declarations

/-! ## Items that are called -/

/-- **An item that a call can mean**: it has the key of the callee, and takes as many arguments as
are passed. Its body has the context in front of its parameters, and needs no receiver if none is
passed; if there is no body, a diagnostic says why not. -/
structure Program.Links (program : Program) (callee : BodyName) (argc : Nat) (onObject : Bool)
    (item : WorkItem) : Prop where
  mem : item ∈ WorkItem.all program.table
  key : item.bodyName.key = callee.key
  argc : argc = (item.params program.table).length
  body : (∃ body ∈ program.bodies, body.name = item.bodyName ∧
      body.params = item.params program.table ∧ body.hasContext = true ∧
      (onObject = false → body.isStatic = true)) ∨
    ∃ diagnostic ∈ program.diagnostics, diagnostic.routine = item.displayName

namespace Program

variable {settings : Settings} {units : List SourceUnit} {program : Program} {item : WorkItem}
    {body : Body} {callee : BodyName} {argc : Nat} {onObject : Bool} {entry : TypeEntry}
    {cells : List Operand} {i : Instruction} {table : Table}

/-- Every body is that of an item. -/
theorem exists_item (h : compile settings units = .ok program) (mem : body ∈ program.bodies) :
    ∃ item ∈ WorkItem.all program.table, ∃ n,
      (item.compile program.table settings n).1 = .ok body := by
  rw [(eq_ofResults_of_compile h).2] at mem
  obtain ⟨result, there, same⟩ := List.mem_filterMap.mp mem
  obtain ⟨item, own, n, rfl⟩ := exists_of_mem_compileItems there
  refine ⟨item, own, n, ?_⟩
  rw [item.compile_eq]
  cases known : item.result program.table settings with
  | error error =>
    rw [known] at same
    cases same
  | ok plain =>
    rw [known] at same
    cases same
    rfl

/-- An item has a body, or a diagnostic says why not. -/
theorem body_or_diagnostic (h : compile settings units = .ok program)
    (mem : item ∈ WorkItem.all program.table) :
    (∃ body ∈ program.bodies, ∃ n, (item.compile program.table settings n).1 = .ok body) ∨
      ∃ diagnostic ∈ program.diagnostics, diagnostic.routine = item.displayName := by
  have results := (eq_ofResults_of_compile h).2
  obtain ⟨n, there⟩ := mem_compileItems settings 0 mem
  have named : item.Yields (item.compile program.table settings n).1 := item.yields_compile n
  cases compiled : (item.compile program.table settings n).1 with
  | ok body =>
    refine .inl ⟨body, ?_, n, compiled⟩
    rw [results]
    exact List.mem_filterMap.mpr ⟨_, there, by rw [compiled]⟩
  | error error =>
    rw [compiled] at named
    refine .inr ⟨.ofError error, ?_, named⟩
    rw [results]
    exact List.mem_filterMap.mpr ⟨_, there, by rw [compiled]⟩

/-- An item whose bodies are as a call takes them is one that the call can mean. -/
theorem links_of_mem (h : compile settings units = .ok program)
    (mem : item ∈ WorkItem.all program.table) (key : item.bodyName.key = callee.key)
    (argc_eq : argc = (item.params program.table).length)
    (takes : ∀ n body, (item.compile program.table settings n).1 = .ok body →
      body.hasContext = true ∧ (onObject = false → body.isStatic = true)) :
    program.Links callee argc onObject item := by
  refine ⟨mem, key, argc_eq, (body_or_diagnostic h mem).imp_left ?_⟩
  rintro ⟨body, there, n, compiled⟩
  obtain ⟨name, params⟩ := WorkItem.name_of_compile compiled
  exact ⟨body, there, name, params, takes n body compiled⟩

/-- A function that is found is called without a receiver. -/
theorem links_function (h : compile settings units = .ok program)
    (linkable : ∀ unit ∈ units, ∀ declared ∈ declaredItems false unit.items, declared.2.Linkable)
    {name : String} {entry : FunctionEntry} (found : program.table.function? name = some entry) :
    ∃ item, program.Links (.function entry.name) entry.routine.params.length false item ∧
      item.params program.table = entry.routine.params := by
  have populated := (eq_ofResults_of_compile h).1
  have mem := List.mem_of_find?_eq_some found
  have chosen := List.find?_some found
  simp only [Bool.and_eq_true, Bool.not_eq_true'] at chosen
  have site : entry.placement.site? = none := by rw [Placement.site?, chosen.1]; rfl
  obtain ⟨unit, unit_mem, conditional, declared, origin, declared_mem, eq⟩ :=
    Table.mem_declarations_of_ofUnits populated (Table.mem_declarations_of_mem_functions mem)
  have given := linkable unit unit_mem _ declared_mem
  cases declared with
  | type declaration => cases eq
  | function routine =>
    cases eq
    obtain ⟨owner, isStatic⟩ := given
    refine ⟨.routine routine _ _, links_of_mem h (List.mem_append_left _
      (List.mem_map.mpr ⟨_, mem, rfl⟩)) ?_ rfl fun n body compiled => ?_, rfl⟩
    · simp only [WorkItem.bodyName, Routine.bodyName, owner, site, BodyName.atSite,
        BodyName.function]
    · obtain ⟨draft, layout, -, -, rfl⟩ := exists_layout_of_compileRoutine compiled
      exact ⟨rfl, fun _ => isStatic⟩

/-- A method of a type is called on an object. -/
theorem links_method (h : compile settings units = .ok program) {method : Routine}
    (owns : entry.OwnsMethods) (mem : entry ∈ program.table.types) (own : method ∈ entry.methods) :
    ∃ item, program.Links ((BodyName.method entry.name method.name).atSite entry.placement.site?)
        method.params.length true item ∧ item.params program.table = method.params := by
  obtain ⟨owner, owned, same⟩ := owns.owner method own
  refine ⟨.routine method entry.placement.file entry.placement.site?,
    links_of_mem h (List.mem_append_right _ (List.mem_flatMap.mpr ⟨entry, mem, ?_⟩)) ?_
      rfl fun n body compiled => ?_, rfl⟩
  · simp [WorkItem.ofType, own]
  · simp only [WorkItem.bodyName, Routine.bodyName, owned, BodyName.atSite, BodyName.method,
      BodyName.key, same]
  · obtain ⟨draft, layout, -, -, rfl⟩ := exists_layout_of_compileRoutine compiled
    exact ⟨rfl, fun given => absurd given.symm Bool.false_ne_true⟩

/-- The constructor of a type that is found is called on a new object. -/
theorem links_constructor (h : compile settings units = .ok program)
    (found : program.table.Found entry) :
    program.Links (.constructor entry.name) (initializerParams program.table entry).length true
      (.constructor entry) := by
  refine links_of_mem h (List.mem_append_right _ (List.mem_flatMap.mpr ⟨entry, found.mem, ?_⟩)) ?_
    rfl fun n body compiled => ?_
  · simp [WorkItem.ofType]
  · simp only [WorkItem.bodyName, TypeEntry.bodyName, site?_of_found found, BodyName.constructor,
      BodyName.atSite, BodyName.method]
  · obtain ⟨draft, assembled, -, -, rfl⟩ := exists_assembled_of_compileMember compiled
    exact ⟨rfl, fun given => absurd given.symm Bool.false_ne_true⟩

/-- The type of a constructor is one of the table. -/
theorem mem_types_of_constructor (h : .constructor entry ∈ WorkItem.all table) :
    entry ∈ table.types := by
  obtain mem | mem := List.mem_append.mp h
  · obtain ⟨_, -, eq⟩ := List.mem_map.mp mem
    cases eq
  · obtain ⟨t, there, mem⟩ := List.mem_flatMap.mp mem
    have own : entry = t := by
      simp only [WorkItem.ofType, List.mem_append, List.mem_map, List.mem_singleton,
        List.mem_ite_nil_right, reduceCtorEq, and_false, exists_false, WorkItem.constructor.injEq,
        false_or, or_false] at mem
      exact mem
    exact own ▸ there

/-- **A call that a body may have** means an item, and the values that it asks for are known. -/
theorem exists_links_of_admits (h : compile settings units = .ok program)
    (linkable : ∀ unit ∈ units, ∀ declared ∈ declaredItems false unit.items, declared.2.Linkable)
    (bases : program.table.KnowsBases) (own : item ∈ WorkItem.all program.table)
    (admits : Admits program.table item cells i) (call : i = .call callee argc onObject) :
    ∃ target below, program.Links callee argc onObject target ∧
      cells = framed (target.params program.table) below ∧
      (onObject = true → ∃ rest, below = .any :: rest) := by
  have owns {t : TypeEntry} (mem : t ∈ program.table.types) : t.OwnsMethods := by
    refine Table.ownsMethods_of_ofUnits (eq_ofResults_of_compile h).1 (fun unit there declared d =>
      ?_) mem
    have given := linkable unit there declared d
    cases known : declared.2 with
    | function => trivial
    | type declaration => rwa [known] at given
  -- Calls are made of functions, of methods whose type is known, of the constructor of a base type
  -- and of initializers; no other instruction that the item admits is a call.
  cases admits with
  | inward inward =>
    subst call
    cases inward
  | @function name entry below found =>
    cases call
    obtain ⟨target, links, params⟩ := links_function h linkable found
    exact ⟨target, below, links, by rw [params], nofun⟩
  | @method type name entry method below found dynamic =>
    cases call
    obtain ⟨declaring, mem⟩ := Table.found_of_resolveMethod? found
    obtain ⟨target, links, params⟩ := links_method h (owns declaring.mem) declaring.mem mem
    rw [site?_of_found declaring] at links
    exact ⟨target, _, links, by rw [params], fun _ => ⟨_, rfl⟩⟩
  | @base self name entry below constructs extends_ found =>
    cases call
    exact ⟨.constructor entry, _, links_constructor h ⟨_, found⟩, rfl, fun _ => ⟨_, rfl⟩⟩
  | @conditionalBase self name below constructs extends_ unknown declared =>
    subst constructs
    have known := bases self (mem_types_of_constructor own) name extends_ declared
    rw [unknown] at known
    cases known
  | @initializer self declaring init below constructs resolved =>
    cases call
    subst constructs
    obtain ⟨mem, declared⟩ :=
      Table.mem_of_resolveInitializer? (mem_types_of_constructor own) resolved
    obtain ⟨target, links, params⟩ := links_method h (owns mem) mem declared
    exact ⟨target, _, links, by rw [params], fun _ => ⟨_, rfl⟩⟩
  | create | conditionalCreate | sharedStore | boundStore => cases call
  | static =>
    unfold staticAccess at call
    split at call <;> cases call

/-- **A creation that a body may have** of a type that is found passes what its constructor asks
for. -/
theorem cells_of_admits_create {item : WorkItem} {type : QualifiedName} {entry : TypeEntry}
    (admits : Admits table item cells i) (create : i = .newObject type argc)
    (found : table.type? type.text = some entry) :
    type = entry.name ∧ argc = (initializerParams table entry).length ∧
      ∃ below, cells = framed (initializerParams table entry) below := by
  cases admits with
  | inward inward =>
    subst create
    cases inward
  | @create name other below found' =>
    cases create
    have own : table.Found other := ⟨name, found'⟩
    obtain rfl : other = entry := Option.some.inj (own.type?_name.symm.trans found)
    exact ⟨rfl, rfl, below, rfl⟩
  | conditionalCreate unknown =>
    cases create
    rw [found] at unknown
    cases unknown
  | function | method | base | conditionalBase | initializer | sharedStore | boundStore =>
    cases create
  | static =>
    unfold staticAccess at create
    split at create <;> cases create

/-- **Callers and callees agree.** Every call in every body of a program has the key of an item
that takes as many arguments as are passed, and every creation of a type that is found is one of an
object whose constructor takes as many, those of the initializer that runs for the type. Whenever a
frame comes there, the values on its stack are those that the parameters ask for. -/
theorem linked (h : compile settings units = .ok program)
    (linkable : ∀ unit ∈ units, ∀ declared ∈ declaredItems false unit.items, declared.2.Linkable)
    (bases : program.table.KnowsBases) (mem : body ∈ program.bodies) :
    (∀ n callee argc onObject, body.code[n]? = some (.call callee argc onObject) →
      ∃ target, program.Links callee argc onObject target ∧
        ∀ frame history, body.Runs (frame :: history) → frame.pc = n →
          Passes (target.params program.table) onObject frame.stack) ∧
    ∀ n type argc entry, body.code[n]? = some (.newObject type argc) →
      program.table.type? type.text = some entry →
      argc = (initializerParams program.table entry).length ∧
      program.Links (.constructor type) argc true (.constructor entry) ∧
      ∀ frame history, body.Runs (frame :: history) → frame.pc = n →
        Passes (initializerParams program.table entry) false frame.stack := by
  obtain ⟨item, own, c, compiled⟩ := exists_item h mem
  obtain ⟨front, bears⟩ := WorkItem.exists_bears_of_compile compiled
  -- What is known in front of an instruction is what the instruction asks for.
  have describes {n : Nat} {a : Shape} {frame : Frame} {history : List Frame}
      (only : ∀ b, front n = some b → b = a) (runs : body.Runs (frame :: history))
      (here : frame.pc = n) : a.Describes frame.stack := by
    obtain ⟨b, known, describes, -⟩ := (runs.tracked bears).here
    rwa [only b (here ▸ known)] at describes
  refine ⟨fun n callee argc onObject hi => ?_, fun n type argc entry hi found => ?_⟩
  · obtain ⟨a, fine, only⟩ := bears.fine n _ hi
    obtain ⟨target, below, links, cells, receiver⟩ :=
      exists_links_of_admits h linkable bases own (fine.admits rfl) rfl
    exact ⟨target, links, fun frame history runs here =>
      passes_of_describes (describes only runs here) cells receiver⟩
  · obtain ⟨a, fine, only⟩ := bears.fine n _ hi
    obtain ⟨rfl, argc_eq, below, cells⟩ := cells_of_admits_create (fine.admits rfl) rfl found
    refine ⟨argc_eq, argc_eq ▸ links_constructor h ⟨_, found⟩, fun frame history runs here => ?_⟩
    exact passes_of_describes (describes only runs here) cells nofun

/-- A function that asks for its context, one that calls it and creates an object, and the types
of the object. -/
def linkedDeclarations : SourceUnit :=
  ⟨"a.php", [
    .function ⟨"g", [⟨"c", .context, none⟩, ⟨"x", .value .value, none⟩], true, none, false,
      .straight [⟨.echo (.var "x"), none⟩]⟩,
    .function ⟨"f", [⟨"x", .value .value, none⟩], true, none, false, .straight [
      ⟨.eval (.call ⟨"g"⟩ [.var "x"]), none⟩, ⟨.eval (.create ⟨"B"⟩ [.var "x"]), none⟩]⟩,
    typeWithField "A" none (.literal (.string "a")) [echoing userInitializer],
    typeWithField "B" (some ⟨"A"⟩) (.literal (.string "b")) []]⟩

theorem linked_linkedDeclarations :
    ∃ program body callee type entry,
      compile (.ofPreset .release) [linkedDeclarations] = .ok program ∧
      (∀ unit ∈ [linkedDeclarations], ∀ declared ∈ declaredItems false unit.items,
        declared.2.Linkable) ∧
      program.table.KnowsBases ∧ body ∈ program.bodies ∧
      body.code[3]? = some (.call callee 2 false) ∧ body.code[7]? = some (.newObject type 1) ∧
      program.table.type? type.text = some entry ∧
      (∃ target, program.Links callee 2 false target ∧
        ∀ frame history, body.Runs (frame :: history) → frame.pc = 3 →
          Passes (target.params program.table) false frame.stack) ∧
      1 = (initializerParams program.table entry).length ∧
      program.Links (.constructor type) 1 true (.constructor entry) ∧
      ∀ frame history, body.Runs (frame :: history) → frame.pc = 7 →
        Passes (initializerParams program.table entry) false frame.stack := by
  -- The facts that are evaluated: bases are there, and there is a call and a creation at the two
  -- places.
  have compiled : (compiled? (.ofPreset .release) [linkedDeclarations]).map (fun program =>
      (program.table.types.all fun entry => entry.base.all fun base =>
          (program.table.type? base.text).isSome,
        program.bodies.any fun body : Body =>
          (body.code[3]?.bind Instruction.callee?).any (·.2 == (2, false)) &&
            (body.code[7]?.bind Instruction.created?).any fun created =>
              created.2 == 1 && (program.table.type? created.1.text).isSome)) =
      some (true, true) := by decide +kernel
  obtain ⟨program, compiled, facts⟩ := Option.map_eq_some_iff.mp compiled
  obtain ⟨known, calls⟩ := Prod.mk.inj facts
  obtain ⟨body, mem, calls⟩ := List.any_eq_true.mp calls
  have compiled := compile_of_compiled? compiled
  have bases : program.table.KnowsBases := fun entry mem base extends_ _ =>
    (Option.all_eq_true _ _).mp (List.all_eq_true.mp known entry mem) base extends_
  have linkable : ∀ unit ∈ [linkedDeclarations], ∀ declared ∈ declaredItems false unit.items,
      declared.2.Linkable := by
    have owned {name : String} {base : Option QualifiedName} {value : Expr}
        {methods : List Routine} (few : methods = [] ∨ ∃ method, methods = [echoing method]) :
        TypeDeclaration.OwnsMethods
          ⟨⟨name⟩, base, [⟨"f", false, some value⟩], methods, false, false⟩ :=
      ownsMethods_typeWithField few _ List.mem_cons_self
    simp only [forall_eq, linkedDeclarations, declaredItems, Item.declared, typeWithField,
      List.append_nil, List.singleton_append, List.mem_cons, List.not_mem_nil, or_false,
      forall_eq_or_imp]
    exact ⟨⟨rfl, rfl⟩, ⟨rfl, rfl⟩, owned (.inr ⟨_, rfl⟩), owned (.inl rfl)⟩
  simp only [Bool.and_eq_true, Option.any_eq_true, Option.bind_eq_some_iff, beq_iff_eq] at calls
  obtain ⟨⟨⟨callee, _⟩, ⟨i, call, called⟩, rfl⟩, ⟨type, _⟩, ⟨j, create, created⟩, rfl, found⟩ := calls
  obtain rfl := Instruction.eq_of_callee? called
  obtain rfl := Instruction.eq_of_created? created
  obtain ⟨entry, found⟩ := Option.isSome_iff_exists.mp found
  obtain ⟨called, created⟩ := linked compiled linkable bases mem
  exact ⟨program, body, callee, type, entry, compiled, linkable, bases, mem, call, create, found,
    called 3 callee 2 false call, created 7 type 1 entry create found⟩

end Program

end StackScript
