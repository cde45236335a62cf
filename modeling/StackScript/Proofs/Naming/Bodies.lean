import Mathlib.Data.List.Nodup
import StackScript.Machine.Run
import StackScript.Proofs.Program.Items

/-!
# Bodies do not collide

In a program whose names do not contain the marks of keys, and whose methods are not named like the
members that types have without a declaration, no two bodies have one key, so that look-up by name
and the bodies of the loaded program agree. This takes units with different paths: the place of a
conditional declaration is its file and its number in that file, and two units with one path make
two declarations with one place.

## Main definitions

* `Declared.Regular`, `TypeEntry.Regular`: names from which those of bodies can be read back

## Main results

* `WorkItem.key_ne_of_ofUnits`: the items of a table have different keys
* `Program.unambiguous_of_compile`: the bodies of a program have different keys, and both look-ups
  find every one of them
* `exists_collision`: two units with one path and conditional functions with one key
-/

namespace StackScript

variable {declared : Declared} {placement : Placement}

/-! ## Regular names -/

/-- The members that types have without a declaration. -/
def BodyName.synthesized : List String :=
  [constructorName, typeInitializerName, staticsInitializerName, invokeName]

/-- The type owns its methods, none of them is named like a member without a declaration, and no
name contains a mark. -/
structure TypeDeclaration.Regular (declaration : TypeDeclaration) : Prop
    extends declaration.OwnsMethods where
  name : Unmarked declaration.name.text
  methods : ∀ method ∈ declaration.methods, Unmarked method.name ∧
    ∀ member ∈ BodyName.synthesized, method.isNamed member = false

/-- A function that belongs to no type and whose name contains no mark, or a regular type. -/
def Declared.Regular : Declared → Prop
  | .function routine => routine.owner = none ∧ Unmarked routine.name
  | .type declaration => declaration.Regular

/-- The declared type owns its methods, none of them is named like a member without a declaration,
and no name contains a mark. -/
structure TypeEntry.Regular (entry : TypeEntry) : Prop extends entry.OwnsMethods where
  name : Unmarked entry.name.text
  methods : ∀ method ∈ entry.methods, Unmarked method.name ∧
    ∀ member ∈ BodyName.synthesized, method.isNamed member = false

theorem Unmarked.trimRoot {name : String} (h : Unmarked name) : Unmarked (trimRoot name) := by
  simp only [Unmarked, StackScript.trimRoot, String.toList_ofList]
  exact h.imp (fun no mem => no ((List.dropWhile_sublist _).mem mem))
    fun no mem => no ((List.dropWhile_sublist _).mem mem)

theorem Declared.typeRegular_of_entryAt {entry : TypeEntry} (regular : declared.Regular)
    (h : Declaration.type entry = declared.entryAt placement) : entry.Regular := by
  cases declared with
  | function routine => cases h
  | type declaration =>
    have source_owns : (Declared.type declaration).OwnsMethods := regular.toOwnsMethods
    have owns : entry.OwnsMethods := Declared.ownsMethods_of_entryAt source_owns h
    cases h
    refine ⟨owns, regular.name, fun method mem => ?_⟩
    obtain ⟨source, source_mem, rfl⟩ := List.mem_map.mp mem
    exact regular.methods source source_mem

/-- The name of a regular function's body, taken apart. -/
structure FunctionEntry.Regular (entry : FunctionEntry) : Prop where
  owner : entry.routine.bodyName.owner = none
  name : Text.foldCase entry.routine.bodyName.name = entry.name.key
  unmarked : Unmarked entry.routine.bodyName.name

theorem Declared.functionRegular_of_entryAt {entry : FunctionEntry} (regular : declared.Regular)
    (h : Declaration.function entry = declared.entryAt placement) : entry.Regular := by
  cases declared with
  | type declaration => cases h
  | function routine =>
    obtain ⟨free, unmarked⟩ := regular
    cases h
    have name : routine.bodyName = .function (QualifiedName.ofString routine.name) := by
      rw [Routine.bodyName, free]
    exact ⟨by rw [name]; rfl, by rw [name]; rfl, by rw [name]; exact unmarked.trimRoot⟩

namespace WorkItem

variable {item : WorkItem}

/-! ## The items of one type -/

theorem mem_ofType {entry : TypeEntry} (mem : item ∈ ofType entry) :
    (∃ method ∈ entry.methods,
      item = .routine method entry.placement.file entry.placement.site?) ∨
      ∃ member ∈ BodyName.synthesized, item.bodyName = entry.bodyName member := by
  simp only [ofType, List.mem_append, List.mem_map, List.mem_singleton] at mem
  obtain (((⟨method, mem, rfl⟩ | rfl) | mem) | mem) | mem := mem
  · exact .inl ⟨method, mem, rfl⟩
  · exact .inr ⟨_, by simp [BodyName.synthesized], rfl⟩
  all_goals
    split at mem
    · obtain rfl := List.mem_singleton.mp mem
      exact .inr ⟨_, by simp [BodyName.synthesized], rfl⟩
    · cases mem

/-- The items of a type have the name of the type as their owner, and its place. -/
theorem bodyName_of_mem_ofType {entry : TypeEntry} (regular : entry.Regular)
    (mem : item ∈ ofType entry) :
    item.bodyName.owner.map QualifiedName.key = some entry.name.key ∧
      item.bodyName.site = entry.placement.site? ∧ item.bodyName.IsUnmarked := by
  obtain ⟨method, declared, rfl⟩ | ⟨member, declared, eq⟩ := mem_ofType mem
  · obtain ⟨owner, given, same⟩ := regular.owner method declared
    have name : (routine method entry.placement.file entry.placement.site?).bodyName =
        (BodyName.method owner method.name).atSite entry.placement.site? := by
      simp [bodyName, Routine.bodyName, given]
    rw [name]
    refine ⟨congrArg some same, rfl, fun other eq => ?_, (regular.methods method declared).1⟩
    obtain rfl : owner = other := Option.some.inj eq
    rw [← unmarked_foldCase, show Text.foldCase owner.text = entry.name.key from same]
    exact unmarked_foldCase.mpr regular.name
  · rw [eq]
    refine ⟨rfl, rfl, fun other eq => ?_, ?_⟩
    · obtain rfl : entry.name = other := Option.some.inj eq
      exact regular.name
    · have all : ∀ member ∈ BodyName.synthesized, Unmarked member := by decide
      exact all member declared

/-- The names of a type's items, up to letter case. -/
theorem sublist_names_ofType (entry : TypeEntry) :
    ((ofType entry).map fun item => Text.foldCase item.bodyName.name).Sublist
      (entry.methods.map (fun method => Text.foldCase method.bodyName.name) ++
        BodyName.synthesized.map Text.foldCase) := by
  have optional (condition : Bool) (item : WorkItem) (member : String)
      (named : item.bodyName.name = member) :
      ((if condition then [item] else []).map fun item =>
        Text.foldCase item.bodyName.name).Sublist [Text.foldCase member] := by
    cases condition
    · exact List.nil_sublist _
    · exact List.Sublist.refl _ |>.trans (by simp [named])
  simp only [ofType, List.map_append, List.append_assoc, BodyName.synthesized, List.map_cons,
    List.map_nil, List.map_map, ← List.singleton_append (l := _ :: _)]
  refine .append (.refl _) (.append (.refl _) (.append (optional _ _ _ rfl) ?_))
  exact .append (optional _ _ _ rfl) (optional _ _ _ rfl)

/-- The items of a type have different names. -/
theorem names_ofType {entry : TypeEntry} (regular : entry.Regular) :
    (ofType entry).Pairwise fun a b =>
      Text.foldCase a.bodyName.name ≠ Text.foldCase b.bodyName.name := by
  have name (method : Routine) (mem : method ∈ entry.methods) :
      method.bodyName.name = method.name := by
    obtain ⟨owner, given, -⟩ := regular.owner method mem
    simp [Routine.bodyName, given, BodyName.method]
  have nodup : (entry.methods.map (fun method => Text.foldCase method.bodyName.name) ++
      BodyName.synthesized.map Text.foldCase).Nodup := by
    rw [List.nodup_append]
    refine ⟨?_, by decide +kernel, ?_⟩
    · refine List.pairwise_map.mpr (regular.distinct.imp_of_mem fun a_mem b_mem unlike => ?_)
      rw [name _ a_mem, name _ b_mem]
      simpa [Routine.isNamed, Text.equalIgnoringCase] using unlike
    · intro a a_mem b b_mem
      obtain ⟨method, mem, rfl⟩ := List.mem_map.mp a_mem
      obtain ⟨member, member_mem, rfl⟩ := List.mem_map.mp b_mem
      rw [name _ mem]
      have unlike := (regular.methods method mem).2 member member_mem
      simpa [Routine.isNamed, Text.equalIgnoringCase] using unlike
  exact List.pairwise_map.mp (nodup.sublist (sublist_names_ofType entry))

/-! ## The items of a table -/

variable {base : Option String} {units : List SourceUnit} {table : Table}

/-- The items of a table have different keys. -/
theorem key_ne_of_ofUnits (h : Table.ofUnits base units = .ok table)
    (regular : ∀ unit ∈ units, ∀ entry ∈ declaredItems false unit.items, entry.2.Regular)
    (paths : units.Pairwise fun a b => normalizePath base a.path ≠ normalizePath base b.path) :
    (all table).Pairwise fun a b => a.bodyName.key ≠ b.bodyName.key := by
  have apart := Table.apart_of_ofUnits h paths
  have functions (entry : FunctionEntry) (mem : entry ∈ table.functions) : entry.Regular := by
    obtain ⟨unit, unit_mem, _, _, _, declared_mem, eq⟩ :=
      Table.mem_declarations_of_ofUnits h (Table.mem_declarations_of_mem_functions mem)
    exact Declared.functionRegular_of_entryAt (regular unit unit_mem _ declared_mem) eq
  have types (entry : TypeEntry) (mem : entry ∈ table.types) : entry.Regular := by
    obtain ⟨unit, unit_mem, _, _, _, declared_mem, eq⟩ :=
      Table.mem_declarations_of_ofUnits h (Table.mem_declarations_of_mem_types mem)
    exact Declared.typeRegular_of_entryAt (regular unit unit_mem _ declared_mem) eq
  have unmarked (entry : FunctionEntry) (regular : entry.Regular) :
      (entry.routine.bodyName.atSite entry.placement.site?).IsUnmarked :=
    ⟨fun owner eq => (Option.some_ne_none owner (eq.symm.trans regular.owner)).elim,
      regular.unmarked⟩
  have apart_functions : table.functions.Pairwise fun a b =>
      (Declaration.function a).Apart (.function b) := by
    rw [Table.functions_eq]
    refine apart.filterMap _ fun a b unlike a' ha b' hb => ?_
    cases a <;> cases ha
    cases b <;> cases hb
    exact unlike
  have apart_types : table.types.Pairwise fun a b =>
      (Declaration.type a).Apart (.type b) := by
    rw [Table.types_eq]
    refine apart.filterMap _ fun a b unlike a' ha b' hb => ?_
    cases a <;> cases ha
    cases b <;> cases hb
    exact unlike
  -- Two functions differ in name or site, two members of one type in name, members of two types in
  -- the owner or its site; and a function has no owner.
  refine List.pairwise_append.mpr ⟨?_, List.pairwise_flatMap.mpr ⟨?_, ?_⟩, ?_⟩
  · refine List.pairwise_map.mpr (apart_functions.imp_of_mem fun {a b} a_mem b_mem unlike eq => ?_)
    obtain ⟨-, names, sites⟩ := BodyName.parts_of_key_eq (unmarked a (functions a a_mem))
      (unmarked b (functions b b_mem)) eq
    refine unlike rfl ?_ sites
    exact (functions a a_mem).name.symm.trans (names.trans (functions b b_mem).name)
  · intro entry mem
    refine (names_ofType (types entry mem)).imp_of_mem fun a_mem b_mem unlike eq => unlike ?_
    exact (BodyName.parts_of_key_eq (bodyName_of_mem_ofType (types entry mem) a_mem).2.2
      (bodyName_of_mem_ofType (types entry mem) b_mem).2.2 eq).2.1
  · refine apart_types.imp_of_mem fun {a b} a_mem b_mem unlike x x_mem y y_mem eq => ?_
    obtain ⟨owner, site, hx⟩ := bodyName_of_mem_ofType (types a a_mem) x_mem
    obtain ⟨owner', site', hy⟩ := bodyName_of_mem_ofType (types b b_mem) y_mem
    obtain ⟨owners, -, sites⟩ := BodyName.parts_of_key_eq hx hy eq
    rw [owner, owner'] at owners
    rw [site, site'] at sites
    exact unlike rfl (Option.some.inj owners) sites
  · intro x x_mem y y_mem eq
    obtain ⟨a, a_mem, rfl⟩ := List.mem_map.mp x_mem
    obtain ⟨b, b_mem, y_mem⟩ := List.mem_flatMap.mp y_mem
    obtain ⟨owner, -, hy⟩ := bodyName_of_mem_ofType (types b b_mem) y_mem
    have owners := (BodyName.parts_of_key_eq (unmarked a (functions a a_mem)) hy eq).1
    rw [owner, show (a.routine.bodyName.atSite a.placement.site?).owner = none from
      (functions a a_mem).owner] at owners
    cases owners

end WorkItem

/-! ## The bodies of a program -/

/-- No two bodies of the program have one key, and look-up by name and by key finds each. -/
structure Program.Unambiguous (program : Program) : Prop where
  keys : program.bodies.Pairwise fun a b => a.name.key ≠ b.name.key
  found : ∀ body ∈ program.bodies, ∀ name, nameKey name = body.name.key →
    program.body? name = some body
  loaded : ∀ body ∈ program.bodies, (Image.load program).body? body.name.key = some body

/-- In a list whose members have different keys a search by key finds the member it asks for. -/
theorem find?_of_pairwise {α : Type} (key : α → String) {l : List α} {a : α}
    (apart : l.Pairwise fun a b => key a ≠ key b) (mem : a ∈ l) :
    l.find? (fun b => key b == key a) = some a := by
  induction l with
  | nil => cases mem
  | cons first rest ih =>
    obtain ⟨unlike, apart⟩ := List.pairwise_cons.mp apart
    obtain rfl | mem := List.mem_cons.mp mem
    · exact List.find?_cons_of_pos (beq_self_eq_true _)
    · rw [List.find?_cons_of_neg (by simpa using unlike a mem)]
      exact ih apart mem

theorem Program.unambiguous_of_pairwise {program : Program}
    (keys : program.bodies.Pairwise fun a b => a.name.key ≠ b.name.key) :
    program.Unambiguous where
  keys := keys
  found body mem name spelled := by
    rw [Program.body?, spelled]
    exact find?_of_pairwise (fun body => body.name.key) keys mem
  loaded body mem := by
    have keys : (Image.load program).bodies.Pairwise fun a b => a.1 ≠ b.1 := by
      simp only [Image.load, List.pairwise_reverse, List.pairwise_map]
      exact keys.imp fun unlike => unlike.symm
    have mem : (body.name.key, body) ∈ (Image.load program).bodies := by
      simpa [Image.load] using mem
    rw [Image.body?, find?_of_pairwise Prod.fst keys mem]
    rfl

/-- **The bodies of a program do not collide**, provided its names are regular and no two units
have one path. -/
theorem Program.unambiguous_of_compile {settings : Settings} {units : List SourceUnit}
    {program : Program} (h : Program.compile settings units = .ok program)
    (regular : ∀ unit ∈ units, ∀ entry ∈ declaredItems false unit.items, entry.2.Regular)
    (paths : units.Pairwise fun a b =>
      normalizePath settings.baseDirectory a.path ≠ normalizePath settings.baseDirectory b.path) :
    program.Unambiguous := by
  have items := WorkItem.key_ne_of_ofUnits (eq_ofResults_of_compile h).1 regular paths
  have names : ((WorkItem.all program.table).map (·.bodyName)).Pairwise
      fun a b => a.key ≠ b.key := List.pairwise_map.mpr items
  have bodies := names.sublist (sublist_names_of_compile h)
  rw [List.pairwise_map] at bodies
  exact unambiguous_of_pairwise bodies

/-! ## Two files -/

/-- A graph that goes through these statements to its exit. -/
def Graph.straight (statements : List Statement) : Graph :=
  ⟨#[⟨0, statements, some 0⟩, .empty 1], #[⟨0, start, .jump exit⟩]⟩

/-- A file with a conditional function. -/
def conditionalFunctionIn (path : String) : SourceUnit :=
  ⟨path, [.conditional [.function ⟨"f", [], true, none, false, .straight []⟩]]⟩

/-- A file with a conditional type that has a method and a static field. -/
def conditionalTypeIn (path : String) : SourceUnit :=
  ⟨path, [.conditional [.type ⟨⟨"T"⟩, none, [⟨"s", true, none⟩],
    [⟨"m", [], false, none, false, .straight []⟩], false, false⟩]]⟩

/-- Two files may both declare one function conditionally, and a type between them. -/
theorem Program.unambiguous_of_compile_threeFiles :
    ∃ program, Program.compile (.ofPreset .release)
        [conditionalFunctionIn "a.php", conditionalTypeIn "lib/t.php",
          conditionalFunctionIn "lib/a.php"] = .ok program ∧
      program.bodies.length = 5 ∧ program.Unambiguous := by
  have compiled : (Program.compiled? (.ofPreset .release)
      [conditionalFunctionIn "a.php", conditionalTypeIn "lib/t.php",
        conditionalFunctionIn "lib/a.php"]).map (·.bodies.length) = some 5 := by
    decide +kernel
  obtain ⟨program, compiled, length⟩ := Option.map_eq_some_iff.mp compiled
  have compiled := Program.compile_of_compiled? compiled
  refine ⟨program, compiled, length, Program.unambiguous_of_compile compiled ?_ (by decide +kernel)⟩
  have function (path : String) :
      ∀ entry ∈ declaredItems false (conditionalFunctionIn path).items, entry.2.Regular := by
    simp only [conditionalFunctionIn, declaredItems, Item.declared, List.append_nil,
      List.mem_singleton, forall_eq]
    exact ⟨rfl, by decide⟩
  have type (path : String) :
      ∀ entry ∈ declaredItems false (conditionalTypeIn path).items, entry.2.Regular := by
    simp only [conditionalTypeIn, declaredItems, Item.declared, List.append_nil,
      List.mem_singleton, forall_eq]
    refine ⟨⟨by simp, List.pairwise_singleton _ _⟩, by decide, ?_⟩
    simp only [List.mem_singleton, forall_eq]
    exact ⟨by decide, by decide +kernel⟩
  simp only [List.mem_cons, List.not_mem_nil, or_false, forall_eq_or_imp, forall_eq]
  exact ⟨function _, type _, function _⟩

/-- **Two units with one path collide**: the place of a conditional declaration does not say which
of the units it stands in. -/
theorem exists_collision :
    ∃ units program, Program.compile (.ofPreset .release) units = .ok program ∧
      (∀ unit ∈ units, ∀ entry ∈ declaredItems false unit.items, entry.2.Regular) ∧
      ¬ program.bodies.Pairwise fun a b => a.name.key ≠ b.name.key := by
  have compiled : (Program.compiled? (.ofPreset .release) [conditionalFunctionIn "a.php",
      conditionalFunctionIn "./a.php"]).map (·.bodies.map (·.name.key)) =
      some ["f@a.php#0", "f@a.php#0"] := by decide +kernel
  obtain ⟨program, compiled, keys⟩ := Option.map_eq_some_iff.mp compiled
  refine ⟨_, program, Program.compile_of_compiled? compiled, ?_, fun apart => ?_⟩
  · simp only [List.mem_cons, List.not_mem_nil, or_false, forall_eq_or_imp, forall_eq,
      conditionalFunctionIn, declaredItems, Item.declared, List.append_nil]
    exact ⟨⟨rfl, by decide⟩, ⟨rfl, by decide⟩⟩
  · have nodup := List.pairwise_map.mpr apart
    rw [keys] at nodup
    exact absurd nodup (by decide)

end StackScript
