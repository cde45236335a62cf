import StackScript.Proofs.Declaration.Population
import StackScript.Proofs.Naming.Keys

/-!
# What a table holds

Every declaration of a table stands in one of the units. If no two units have one path, two
declarations of one kind with one name stand at places with different tags: at most one of them is
unconditional, and conditional ones differ in the file or in the number.

## Main definitions

* `TypeDeclaration.OwnsMethods`, `TypeEntry.OwnsMethods`: the methods of a type are its own, and
  have different names
* `Declaration.Apart`: the bodies of two declarations have different names

## Main results

* `Table.files_of_ofUnits`: the files of a table stand in the order of the units
* `Table.mem_declarations_of_ofUnits`: where a declaration comes from
* `Table.apart_of_ofUnits`: the declarations of a table are apart
-/

namespace StackScript

/-! ## Methods -/

/-- The methods of the type belong to it, and no two of them have one name. -/
structure TypeDeclaration.OwnsMethods (declaration : TypeDeclaration) : Prop where
  owner : ∀ method ∈ declaration.methods, ∀ owner ∈ method.owner,
    owner.key = declaration.name.key
  distinct : declaration.methods.Pairwise fun a b => a.isNamed b.name = false

/-- What stands in a file owns its methods, if it is a type. -/
def Declared.OwnsMethods : Declared → Prop
  | .function _ => True
  | .type declaration => declaration.OwnsMethods

/-- The methods of the declared type belong to it, and no two of them have one name. -/
structure TypeEntry.OwnsMethods (entry : TypeEntry) : Prop where
  owner : ∀ method ∈ entry.methods, ∃ owner, method.owner = some owner ∧
    owner.key = entry.name.key
  distinct : entry.methods.Pairwise fun a b => a.isNamed b.name = false

/-- A method without an owner becomes one of the type. -/
theorem Declared.ownsMethods_of_entryAt {placement : Placement} {declared : Declared}
    {entry : TypeEntry} (owns : declared.OwnsMethods)
    (h : Declaration.type entry = declared.entryAt placement) : entry.OwnsMethods := by
  cases declared with
  | function routine => cases h
  | type declaration =>
    cases h
    refine ⟨fun method mem => ?_, ?_⟩
    · obtain ⟨source, source_mem, rfl⟩ := List.mem_map.mp mem
      refine ⟨_, rfl, ?_⟩
      cases given : source.owner with
      | none => rfl
      | some owner => exact owns.owner source source_mem owner given
    · exact List.pairwise_map.mpr owns.distinct

/-! ## Declarations -/

namespace Table

theorem mem_declarations_of_mem_functions {table : Table} {entry : FunctionEntry}
    (h : entry ∈ table.functions) : .function entry ∈ table.declarations := by
  rw [functions_eq] at h
  obtain ⟨declaration, mem, eq⟩ := List.mem_filterMap.mp h
  cases declaration <;> cases eq
  exact mem

theorem mem_declarations_of_mem_types {table : Table} {entry : TypeEntry}
    (h : entry ∈ table.types) : .type entry ∈ table.declarations := by
  rw [types_eq] at h
  obtain ⟨declaration, mem, eq⟩ := List.mem_filterMap.mp h
  cases declaration <;> cases eq
  exact mem

variable {base : Option String} {units : List SourceUnit} {table : Table}

theorem files_of_ofUnits (h : ofUnits base units = .ok table) :
    table.files = filesOf base units := by
  rw [ofUnits_eq_ok_iff, ofFiles?] at h
  split at h <;> cases h
  rfl

/-- No two unconditional declarations of one kind have one name. -/
theorem not_conflictsWith_of_ofUnits (h : ofUnits base units = .ok table) :
    table.declarations.Pairwise fun a b => a.conflictsWith b = false := by
  rw [ofUnits_eq_ok_iff, ofFiles?] at h
  split at h <;> cases h
  assumption

/-- Every declaration of a table stands in a unit, and its file has the normal form of the path of
that unit. -/
theorem mem_declarations_of_ofUnits (h : ofUnits base units = .ok table)
    {declaration : Declaration} (mem : declaration ∈ table.declarations) :
    ∃ unit ∈ units, ∃ conditional declared origin,
      (conditional, declared) ∈ declaredItems false unit.items ∧
      declaration = declared.entryAt ⟨normalizePath base unit.path, conditional, origin⟩ := by
  obtain ⟨file, file_mem, mem⟩ := List.mem_flatMap.mp mem
  rw [files_of_ofUnits h] at file_mem
  obtain ⟨⟨unit, index⟩, unit_mem, rfl⟩ := List.mem_map.mp file_mem
  obtain ⟨⟨⟨conditional, declared⟩, item⟩, item_mem, rfl⟩ := List.mem_map.mp mem
  exact ⟨unit, List.fst_mem_of_mem_zipIdx unit_mem, conditional, declared, ⟨index, item⟩,
    List.fst_mem_of_mem_zipIdx item_mem, rfl⟩

/-- The types of a table own their methods if the types of the units do. -/
theorem ownsMethods_of_ofUnits (h : ofUnits base units = .ok table)
    (owns : ∀ unit ∈ units, ∀ entry ∈ declaredItems false unit.items, entry.2.OwnsMethods)
    {entry : TypeEntry} (mem : entry ∈ table.types) : entry.OwnsMethods := by
  obtain ⟨unit, unit_mem, conditional, declared, origin, declared_mem, eq⟩ :=
    mem_declarations_of_ofUnits h (mem_declarations_of_mem_types mem)
  exact Declared.ownsMethods_of_entryAt (owns unit unit_mem _ declared_mem) eq

end Table

/-! ## Places -/

namespace Declaration

/-- Two declarations of one kind with one name stand at places with different tags. -/
def Apart (a b : Declaration) : Prop :=
  a.isType = b.isType → a.name.key = b.name.key →
    a.placement.site?.map Text.foldCase ≠ b.placement.site?.map Text.foldCase

theorem apart_of_placement {a b : Declaration} (base : Option String) (path path' : String)
    (ha : a.placement.file = normalizePath base path)
    (hb : b.placement.file = normalizePath base path') (unlike : a.conflictsWith b = false)
    (places : a.placement.file = b.placement.file →
      a.placement.origin.item ≠ b.placement.origin.item) : a.Apart b := by
  intro kind name sites
  cases conditional : a.placement.conditional with
  | false =>
    cases conditional' : b.placement.conditional with
    | false => simp [conflictsWith, conditional, conditional', kind, name] at unlike
    | true => simp [Placement.site?, conditional, conditional'] at sites
  | true =>
    cases conditional' : b.placement.conditional with
    | false => simp [Placement.site?, conditional, conditional'] at sites
    | true =>
      obtain ⟨files, items⟩ :=
        Placement.eq_of_site_eq ha hb conditional conditional' sites
      exact places files items

end Declaration

namespace Table

variable {base : Option String} {units : List SourceUnit} {table : Table}

/-- Declarations of one file have different numbers. -/
theorem items_ofUnit (base : Option String) (index : Nat) (unit : SourceUnit) :
    (FileEntry.ofUnit base index unit).declarations.Pairwise fun a b =>
      a.placement.origin.item ≠ b.placement.origin.item := by
  simp only [FileEntry.ofUnit, List.pairwise_map, Declaration.placement_entryAt]
  rw [List.pairwise_iff_getElem]
  intro i j hi hj lt
  simp only [List.getElem_zipIdx]
  omega

/-- Declarations of different files, or with different numbers, are at different places. -/
theorem places_of_ofUnits (h : ofUnits base units = .ok table)
    (paths : units.Pairwise fun a b => normalizePath base a.path ≠ normalizePath base b.path) :
    table.declarations.Pairwise fun a b => a.placement.file = b.placement.file →
      a.placement.origin.item ≠ b.placement.origin.item := by
  have inside (index : Nat) (unit : SourceUnit) :
      ∀ declaration ∈ (FileEntry.ofUnit base index unit).declarations,
        declaration.placement.file = normalizePath base unit.path := by
    intro declaration mem
    obtain ⟨_, -, rfl⟩ := List.mem_map.mp mem
    simp
  have apart : units.zipIdx.Pairwise fun a b =>
      normalizePath base a.1.path ≠ normalizePath base b.1.path := by
    rw [← List.pairwise_map (f := Prod.fst) (R := fun a b : SourceUnit =>
      normalizePath base a.path ≠ normalizePath base b.path)]
    simpa using paths
  rw [declarations, files_of_ofUnits h, List.pairwise_flatMap, filesOf, List.pairwise_map]
  refine ⟨fun file mem => ?_, ?_⟩
  · obtain ⟨⟨unit, index⟩, -, rfl⟩ := List.mem_map.mp mem
    refine (items_ofUnit base index unit).imp ?_
    exact fun unlike _ => unlike
  · exact apart.imp fun unlike a a_mem b b_mem same =>
      absurd ((inside _ _ a a_mem).symm.trans (same.trans (inside _ _ b b_mem))) unlike

/-- The declarations of a table are apart, provided no two units have one path. -/
theorem apart_of_ofUnits (h : ofUnits base units = .ok table)
    (paths : units.Pairwise fun a b => normalizePath base a.path ≠ normalizePath base b.path) :
    table.declarations.Pairwise Declaration.Apart := by
  refine ((not_conflictsWith_of_ofUnits h).and (places_of_ofUnits h paths)).imp_of_mem ?_
  rintro a b a_mem b_mem ⟨unlike, places⟩
  obtain ⟨unit, -, conditional, declared, origin, -, rfl⟩ := mem_declarations_of_ofUnits h a_mem
  obtain ⟨unit', -, conditional', declared', origin', -, rfl⟩ :=
    mem_declarations_of_ofUnits h b_mem
  exact Declaration.apart_of_placement base unit.path unit'.path (by simp) (by simp) unlike places

end Table

end StackScript
